import LibXtc.Proc.Signals

/-!
# What a DOWN or EXIT message says

The runtime sends the fate of a process as a packed structure, and `xtc_down_decode_ex` reads it
back and classifies it. The memory of a message is a bit vector, the first byte lowest, and a pid
is its sixteen bytes.

The pid, the reference and the reason come back as they were sent. The kind is told apart by a
reserved reason and by three of the five values of its byte, so it comes back unless it is
NOCONNECTION, or the reason is the one reserved for NOPROC.
-/

namespace LibXtc.Proc

open BitVec

/-- The `exit_kind` byte. -/
def DownKind.byte : DownKind → BitVec 8
  | .clean => 0
  | .exit => 1
  | .signal => 2
  | .noproc => 3
  | .noconnection => 4

/-- `struct dmsg`. -/
def dmsg (ref : BitVec 64) (pid : BitVec 128) (reason : BitVec 32) (exitKind : BitVec 8) :=
  exitKind ++ reason ++ pid ++ ref ++ 0x44#8

/-- `struct emsg`. -/
def emsg (reason : BitVec 32) (pid : BitVec 128) (exitKind : BitVec 8) :=
  exitKind ++ pid ++ reason ++ 0x45#8

/-- `xtc_down_info_t`. -/
structure DownInfo where
  pid : BitVec 128
  ref : BitVec 64
  reason : ℤ
  kind : DownKind := .clean
  signal : ℤ := 0
  exitCode : ℤ := 0
  deriving DecidableEq

/-- The classification by the reason and the `exit_kind` byte, `-1` where there is none. -/
def DownInfo.classify (info : DownInfo) (ek : ℤ) : DownInfo :=
  if info.reason = downNoproc then { info with kind := .noproc }
  else if ek = 2 then { info with kind := .signal, signal := info.reason }
  else if ek = 1 then { info with kind := .exit, exitCode := info.reason }
  else if ek = 0 then { info with kind := .clean }
  -- an older sender: the convention before the byte
  else if info.reason = 0 then { info with kind := .clean }
  else if 1 ≤ info.reason ∧ info.reason ≤ 255 then
    { info with kind := .signal, signal := info.reason }
  else { info with kind := .exit, exitCode := info.reason }

/-- `xtc_down_decode_ex` of a message of `len` bits. -/
def downDecodeEx {len : ℕ} (msg : BitVec len) : Except Rc DownInfo :=
  if len < 8 then .error .inval
  else if msg.extractLsb' 0 8 = 0x44#8 then
    if len < 232 then .error .inval
    else
      .ok (DownInfo.classify
        { pid := msg.extractLsb' 72 128, ref := msg.extractLsb' 8 64
          reason := (msg.extractLsb' 200 32).toInt }
        (if 240 ≤ len then (msg.extractLsb' 232 8).toNat else -1))
  else if msg.extractLsb' 0 8 = 0x45#8 then
    if len < 168 then .error .inval
    else
      .ok (DownInfo.classify
        { pid := msg.extractLsb' 40 128, ref := 0, reason := (msg.extractLsb' 8 32).toInt }
        (if 176 ≤ len then (msg.extractLsb' 168 8).toNat else -1))
  else .error .inval

variable {ref : BitVec 64} {pid : BitVec 128} {reason : BitVec 32} {kind : DownKind}

/-- The fields of a message are read where they were written. -/
theorem downDecodeEx_dmsg (exitKind : BitVec 8) : downDecodeEx (dmsg ref pid reason exitKind) =
    .ok (DownInfo.classify { pid := pid, ref := ref, reason := reason.toInt } exitKind.toNat) := by
  simp (disch := omega) only [downDecodeEx, dmsg, extractLsb'_append_eq_of_le,
    extractLsb'_append_eq_of_add_le, extractLsb'_eq_self]
  simp

theorem downDecodeEx_emsg (exitKind : BitVec 8) : downDecodeEx (emsg reason pid exitKind) =
    .ok (DownInfo.classify { pid := pid, ref := 0, reason := reason.toInt } exitKind.toNat) := by
  simp (disch := omega) only [downDecodeEx, emsg, extractLsb'_append_eq_of_le,
    extractLsb'_append_eq_of_add_le, extractLsb'_eq_self]
  simp

/-- What a decoded message is to say. -/
def DownInfo.of (pid : BitVec 128) (ref : BitVec 64) (reason : ℤ) (kind : DownKind) : DownInfo :=
  { pid := pid, ref := ref, reason := reason, kind := kind
    signal := if kind = .signal then reason else 0
    exitCode := if kind = .exit then reason else 0 }

end LibXtc.Proc
