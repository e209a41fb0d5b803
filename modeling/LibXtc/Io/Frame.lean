import LibXtc.Foundations.Runs
import LibXtc.Foundations.PrefixCode
import Mathlib.Tactic.Ring

/-!
# The framed transport

A frame is a length of four bytes, the most significant first, and that many bytes of payload.
`xtc_net_send_framev` writes one from the buffers of its caller and `xtc_net_recv_frame` reads one
into a new buffer (`src/io/io_net.c`); both go through as many system calls as the kernel makes
them take. The pump of a child process (`src/orc/xproc.c`) is a receiver that polls.
-/

namespace LibXtc.Frame

open Foundations List

/-- The bytes of `hdr`, before `len` bytes of payload. -/
def hdr (len : ℕ) : List UInt8 :=
  [UInt8.ofNat (len >>> 24), UInt8.ofNat (len >>> 16), UInt8.ofNat (len >>> 8), UInt8.ofNat len]

/-- The length that a full `hdr` announces. -/
def hdrLen : List UInt8 → ℕ
  | [a, b, c, d] => a.toNat <<< 24 ||| b.toNat <<< 16 ||| c.toNat <<< 8 ||| d.toNat
  | _ => 0

/-- `__NET_FRAMEV_MAX`. -/
def framevMax : ℕ := 63

/-- `0xFFFFFFFF`. -/
def lengthMax : ℕ := 0xFFFFFFFF

/-- `XTC_NET_IO_CHUNK`. -/
def ioChunkMax : ℕ := 1 <<< 30

/-- `__net_io_chunk`. -/
def ioChunk (remaining : ℕ) : ℕ := if ioChunkMax < remaining then ioChunkMax else remaining

/-- The loop of `xtc_net_send_framev` over the pieces: it adds up the length and keeps the pieces
that are not empty. -/
def gather : ℕ → List (List UInt8) → Option (ℕ × List (List UInt8))
  | len, [] => some (len, [])
  | len, p :: iov =>
    if p.length = 0 then gather len iov
    else if lengthMax - len < p.length then none
    else (gather (len + p.length) iov).map fun r => (r.1, p :: r.2)

/-- The vector `w` that `xtc_net_send_framev` hands to the kernel; `none` is `XTC_E_INVAL`. -/
def vector (iov : List (List UInt8)) : Option (List (List UInt8)) :=
  if framevMax < iov.length then none
  else (gather 0 iov).map fun r => hdr r.1 :: r.2

/-- The vector after a write of `done` bytes. -/
def advance : List (List UInt8) → ℕ → List (List UInt8)
  | w, 0 => w
  | [], _ => []
  | p :: w, done => if p.length ≤ done then advance w (done - p.length) else p.drop done :: w

/-- What `sendmsg` brings, with the wait after an `EAGAIN`. -/
inductive Wrote
  | count (n : ℕ)
  /-- `EAGAIN`, and then the descriptor is writable. -/
  | again
  /-- `EINTR`. -/
  | intr
  /-- Any other error, or a wait that fails. -/
  | failed

/-- What `recv` brings, with the wait after an `EAGAIN`. -/
inductive Read
  /-- Bytes. `alloc` says whether a frame that is due now can be allocated. -/
  | count (n : ℕ) (alloc : Bool)
  /-- `EAGAIN`, and then the descriptor is readable before the deadline. -/
  | again
  /-- `EAGAIN`, and the deadline passes. -/
  | expired
  /-- `EINTR`. -/
  | intr
  /-- The peer has closed. -/
  | closed
  | failed

/-- Where `xtc_net_recv_frame` is. -/
inductive Recv
  | idle
  /-- In the loop for the length, with the bytes of it that were read. -/
  | heading (maxLen : ℕ) (head : List UInt8)
  /-- In the loop for the payload. -/
  | payload (head data : List UInt8)
  deriving DecidableEq

/-- A connection: the sender's vector, if it is in a call, the bytes in the kernel and the
receiver. The last two fields are the history: the payloads of the frames sent, and those returned
with `XTC_OK`. -/
structure State where
  sending : Option (List (List UInt8))
  wire : List UInt8
  recv : Recv
  sent : List (List UInt8)
  got : List (List UInt8)
  deriving DecidableEq

/-- A new connection. -/
def State.create : State := ⟨none, [], .idle, [], []⟩

namespace State

/-- `xtc_net_send_framev` up to its loop. -/
def send (s : State) (iov : List (List UInt8)) : Option State :=
  match s.sending with
  | some _ => none
  | none =>
    match vector iov with
    | none => some s
    | some w => some { s with sending := some w, sent := s.sent ++ [iov.flatten] }

/-- One turn of the loop of `xtc_net_send_framev`. The call returns when nothing is left. -/
def write (s : State) (o : Wrote) : Option State :=
  match s.sending with
  | none => none
  | some w =>
    match o with
    | .count n =>
      if 0 < n ∧ n ≤ w.flatten.length then
        some { s with
          wire := s.wire ++ w.flatten.take n,
          sending := if n = w.flatten.length then none else some (advance w n) }
      else none
    | .again | .intr => some s
    | .failed => some { s with sending := none }

/-- The length is complete: the tests after the first loop of `xtc_net_recv_frame`. -/
def headed (s : State) (maxLen : ℕ) (head : List UInt8) (alloc : Bool) : State :=
  if 0 < maxLen ∧ maxLen < hdrLen head then { s with recv := .idle }
  else if hdrLen head = 0 then { s with recv := .idle, got := s.got ++ [[]] }
  else if alloc then { s with recv := .payload head [] }
  else { s with recv := .idle }

/-- `xtc_net_recv_frame` begins. -/
def receive (s : State) (maxLen : ℕ) : Option State :=
  match s.recv with
  | .idle => some { s with recv := .heading maxLen [] }
  | _ => none

/-- How many bytes the receiver asks the kernel for. -/
def wanted : Recv → ℕ
  | .idle => 0
  | .heading _ head => 4 - head.length
  | .payload head data => ioChunk (hdrLen head - data.length)

/-- The receiver has read some bytes. -/
def take (s : State) (bytes : List UInt8) (alloc : Bool) : State :=
  match s.recv with
  | .idle => s
  | .heading maxLen head =>
    if (head ++ bytes).length = 4 then s.headed maxLen (head ++ bytes) alloc
    else { s with recv := .heading maxLen (head ++ bytes) }
  | .payload head data =>
    if (data ++ bytes).length = hdrLen head then
      { s with recv := .idle, got := s.got ++ [data ++ bytes] }
    else { s with recv := .payload head (data ++ bytes) }

/-- One turn of a loop of `xtc_net_recv_frame`. All errors return, and the bytes that the call has
read are gone. -/
def read (s : State) (o : Read) : Option State :=
  if s.recv = .idle then none
  else
    match o with
    | .count n alloc =>
      if 0 < n ∧ n ≤ s.wire.length ∧ n ≤ wanted s.recv then
        some (take { s with wire := s.wire.drop n } (s.wire.take n) alloc)
      else none
    | .again | .intr => some s
    | .expired | .closed | .failed => some { s with recv := .idle }

end State

/-- The steps of the two ends. -/
inductive Act
  | send (iov : List (List UInt8))
  | write (o : Wrote)
  | receive (maxLen : ℕ)
  | read (o : Read)

/-- One sender and one receiver on a connection. -/
def system : System State Act where
  init s := s = State.create
  step s
    | .send iov => s.send iov
    | .write o => s.write o
    | .receive maxLen => s.receive maxLen
    | .read o => s.read o

/-! ## The code of a frame -/

/-- A frame on the wire. -/
def encode (payload : List UInt8) : List UInt8 := hdr payload.length ++ payload

theorem length_hdr (len : ℕ) : (hdr len).length = 4 := rfl

theorem shiftLeft_or_byte (x i : ℕ) (y : UInt8) :
    x <<< (i + 8) ||| y.toNat <<< i = (x * 256 + y.toNat) <<< i := by
  have hlt : y.toNat <<< i < 2 ^ (i + 8) := by
    rw [Nat.shiftLeft_eq, Nat.pow_add, Nat.mul_comm]
    exact Nat.mul_lt_mul_of_pos_left y.toNat_lt (Nat.two_pow_pos i)
  rw [← Nat.shiftLeft_add_eq_or_of_lt hlt, Nat.shiftLeft_eq, Nat.shiftLeft_eq, Nat.shiftLeft_eq,
    Nat.pow_add, Nat.add_mul]
  ring

theorem hdrLen_eq (a b c d : UInt8) :
    hdrLen [a, b, c, d] = ((a.toNat * 256 + b.toNat) * 256 + c.toNat) * 256 + d.toNat := by
  have hd := shiftLeft_or_byte ((a.toNat * 256 + b.toNat) * 256 + c.toNat) 0 d
  rw [Nat.shiftLeft_zero, Nat.shiftLeft_zero] at hd
  rw [hdrLen, shiftLeft_or_byte a.toNat 16 b, shiftLeft_or_byte _ 8 c, hd]

theorem hdrLen_hdr {len : ℕ} (hlen : len ≤ lengthMax) : hdrLen (hdr len) = len := by
  unfold lengthMax at hlen
  rw [hdr, hdrLen_eq]
  simp only [UInt8.toNat_ofNat']
  omega

variable {head : List UInt8} {iov w : List (List UInt8)}

theorem exists_bytes (hlen : head.length = 4) : ∃ a b c d, head = [a, b, c, d] := by
  match head, hlen with
  | [a, b, c, d], _ => exact ⟨a, b, c, d, rfl⟩

theorem hdrLen_le (hlen : head.length = 4) : hdrLen head ≤ lengthMax := by
  obtain ⟨a, b, c, d, rfl⟩ := exists_bytes hlen
  have ha := a.toNat_lt
  have hb := b.toNat_lt
  have hc := c.toNat_lt
  have hd := d.toNat_lt
  rw [hdrLen_eq, lengthMax]
  omega

theorem hdr_hdrLen (hlen : head.length = 4) : hdr (hdrLen head) = head := by
  obtain ⟨a, b, c, d, rfl⟩ := exists_bytes hlen
  have ha := a.toNat_lt
  have hb := b.toNat_lt
  have hc := c.toNat_lt
  have hd := d.toNat_lt
  have hbyte {x : ℕ} {y : UInt8} (h : x % 256 = y.toNat) : UInt8.ofNat x = y := by
    apply UInt8.toNat_inj.mp
    exact h
  rw [hdrLen_eq, hdr]
  rw [hbyte (y := a) (by omega), hbyte (y := b) (by omega), hbyte (y := c) (by omega),
    hbyte (y := d) (by omega)]

/-- Frames mark their own end. -/
theorem encode_selfDelimiting :
    SelfDelimiting encode fun payload => payload.length ≤ lengthMax where
  ne_nil payload _ := by simp [encode, hdr]
  inj f g x y hf hg heq := by
    unfold encode at heq
    rw [append_assoc, append_assoc] at heq
    obtain ⟨hhead, hrest⟩ := append_inj heq (by rw [length_hdr, length_hdr])
    have hlen : f.length = g.length := by
      rw [← hdrLen_hdr hf, hhead, hdrLen_hdr hg]
    exact (append_inj hrest hlen).1

/-! ## The sender -/

theorem gather_eq_some {len total : ℕ}
    (h : gather len iov = some (total, w)) (hlen : len ≤ lengthMax) :
    w.flatten = iov.flatten ∧ total = len + iov.flatten.length ∧ total ≤ lengthMax := by
  induction iov generalizing len w with
  | nil =>
    cases h
    exact ⟨rfl, rfl, hlen⟩
  | cons p iov ih =>
    unfold gather at h
    split at h
    · rename_i hempty
      obtain ⟨hw, htotal, hle⟩ := ih h hlen
      rw [eq_nil_of_length_eq_zero hempty]
      exact ⟨hw, htotal, hle⟩
    · split at h
      · cases h
      · obtain ⟨⟨total', w'⟩, hrest, heq⟩ := Option.map_eq_some_iff.mp h
        cases heq
        obtain ⟨hw, htotal, hle⟩ := ih hrest (by omega)
        refine ⟨?_, ?_, hle⟩
        · rw [flatten_cons, flatten_cons, hw]
        · rw [flatten_cons, length_append]
          omega

/-- What the kernel is given is the frame. -/
theorem vector_eq_some (h : vector iov = some w) :
    w.flatten = encode iov.flatten ∧ iov.flatten.length ≤ lengthMax := by
  unfold vector at h
  split at h
  · cases h
  · obtain ⟨⟨total, w'⟩, hgather, heq⟩ := Option.map_eq_some_iff.mp h
    cases heq
    obtain ⟨hw, htotal, hle⟩ := gather_eq_some hgather (Nat.zero_le _)
    rw [Nat.zero_add] at htotal
    rw [flatten_cons, hw, htotal]
    exact ⟨rfl, htotal ▸ hle⟩

/-- A short write leaves the rest of the frame. -/
theorem flatten_advance (w : List (List UInt8)) (n : ℕ) :
    (advance w n).flatten = w.flatten.drop n := by
  induction w generalizing n with
  | nil => cases n <;> simp [advance]
  | cons p w ih =>
    cases n with
    | zero => rfl
    | succ n =>
      rw [advance]
      · split
        · rename_i hle
          rw [ih, flatten_cons, drop_append, drop_of_length_le hle, nil_append]
        · rw [flatten_cons, flatten_cons, drop_append_of_le_length (by omega)]
      · exact Nat.succ_ne_zero n

/-! ## The position in the stream -/

/-- What the sender has still to write. -/
def State.rest (s : State) : List UInt8 := (s.sending.getD []).flatten

/-- What the receiver has read of a frame that it has not returned. -/
def Recv.taken : Recv → List UInt8
  | .idle => []
  | .heading _ head => head
  | .payload head data => head ++ data

/-- What a receiver inside a call relies on. -/
def Recv.Ok : Recv → Prop
  | .idle => True
  | .heading _ head => head.length < 4
  | .payload head data => head.length = 4 ∧ data.length < hdrLen head

/-- The bytes of the frames returned, those of the call that is going on, those in the kernel and
those to be written are the bytes of the frames sent. -/
structure Aligned (s : State) : Prop where
  stream : s.got.flatMap encode ++ s.recv.taken ++ s.wire ++ s.rest = s.sent.flatMap encode
  recv : s.recv.Ok
  sent_le : ∀ f ∈ s.sent, f.length ≤ lengthMax
  got_le : ∀ f ∈ s.got, f.length ≤ lengthMax

/-- The call going on accepts frames of every length. -/
def Recv.uncapped : Recv → Prop
  | .heading maxLen _ => maxLen = 0
  | _ => True

/-- No cap on the length, no failed allocation, no error and no end of the connection. -/
def Act.plain : Act → Bool
  | .receive maxLen => maxLen = 0
  | .read (.count _ alloc) => alloc
  | .read .closed | .read .failed | .write .failed => false
  | _ => true

/-- A receiver gives up on its deadline only before it has read a byte of the frame. -/
def State.patient (s : State) : Act → Bool
  | .read .expired => s.recv.taken = []
  | _ => true

variable {s s' : State}

section

variable (h : Aligned s) {n : ℕ}
include h

theorem Aligned.send (hs' : s.send iov = some s') : Aligned s' := by
  unfold State.send at hs'
  split at hs'
  · cases hs'
  · rename_i hidle
    split at hs'
    · cases hs'
      exact h
    · rename_i w hw
      cases hs'
      obtain ⟨hflatten, hle⟩ := vector_eq_some hw
      refine ⟨?_, h.recv, ?_, h.got_le⟩
      · have hstream := h.stream
        have hrest : s.rest = [] := by
          unfold State.rest
          rw [hidle]
          rfl
        rw [hrest, append_nil] at hstream
        change _ ++ s.recv.taken ++ s.wire ++ w.flatten = (s.sent ++ [iov.flatten]).flatMap encode
        rw [hstream, hflatten, flatMap_append, flatMap_singleton]
      · intro f hf
        rcases mem_append.mp hf with hf | hf
        · exact h.sent_le f hf
        · rw [mem_singleton.mp hf]
          exact hle

theorem Aligned.write {o : Wrote} (hplain : (Act.write o).plain = true)
    (hs' : s.write o = some s') : Aligned s' := by
  unfold State.write at hs'
  split at hs'
  · cases hs'
  · rename_i w hw
    split at hs'
    · rename_i n
      split at hs' <;> cases hs'
      refine ⟨?_, h.recv, h.sent_le, h.got_le⟩
      -- the bytes move from the vector to the kernel
      have hmoved : ((if n = w.flatten.length then none else some (advance w n)).getD []).flatten =
          w.flatten.drop n := by
        split
        · rename_i heq
          rw [heq, drop_length]
          rfl
        · exact flatten_advance w n
      have hrest : s.rest = w.flatten := by
        unfold State.rest
        rw [hw]
        rfl
      rw [← h.stream, hrest]
      unfold State.rest
      rw [hmoved]
      simp only [append_assoc, take_append_drop]
    · cases hs'
      exact h
    · cases hs'
      exact h
    · cases hplain

theorem Aligned.receive {maxLen : ℕ} (hs' : s.receive maxLen = some s') : Aligned s' := by
  unfold State.receive at hs'
  split at hs'
  · rename_i hidle
    cases hs'
    have hstream := h.stream
    rw [hidle] at hstream
    exact ⟨hstream, Nat.zero_lt_succ 3, h.sent_le, h.got_le⟩
  · cases hs'

/-- What `recv` brings is read off the front of the stream. -/
theorem Aligned.stream_take (n : ℕ) :
    s.got.flatMap encode ++ (s.recv.taken ++ s.wire.take n) ++ s.wire.drop n ++ s.rest =
      s.sent.flatMap encode := by
  rw [← h.stream]
  simp only [append_assoc, append_cancel_left_eq]
  rw [← append_assoc, take_append_drop]

theorem Aligned.take {r : Recv} (hr : r.Ok) (htaken : s.recv.taken ++ s.wire.take n = r.taken) :
    Aligned { s with wire := s.wire.drop n, recv := r } := by
  refine ⟨?_, hr, h.sent_le, h.got_le⟩
  have hstream := h.stream_take n
  rw [htaken] at hstream
  exact hstream

/-- A frame is returned when its bytes are those that the call has read. -/
theorem Aligned.finish {data : List UInt8}
    (htaken : s.recv.taken ++ s.wire.take n = head ++ data) (hhead : head.length = 4)
    (hdata : data.length = hdrLen head) :
    Aligned { s with wire := s.wire.drop n, recv := .idle, got := s.got ++ [data] } := by
  have hcode : encode data = head ++ data := by
    rw [encode, hdata, hdr_hdrLen hhead]
  refine ⟨?_, trivial, h.sent_le, ?_⟩
  · have hstream := h.stream_take n
    rw [htaken, ← hcode] at hstream
    change (s.got ++ [data]).flatMap encode ++ [] ++ s.wire.drop n ++ s.rest = _
    rw [← hstream, flatMap_append, flatMap_singleton, append_nil]
  · intro f hf
    rcases mem_append.mp hf with hf | hf
    · exact h.got_le f hf
    · rw [mem_singleton.mp hf, hdata]
      exact hdrLen_le hhead

/-- The call goes on with what it has read, or returns the frame that is now complete. -/
theorem Aligned.count (hcap : s.recv.uncapped) (hn : n ≤ s.wire.length)
    (hwanted : n ≤ State.wanted s.recv) :
    Aligned (State.take { s with wire := s.wire.drop n } (s.wire.take n) true) := by
  have hlen : (s.wire.take n).length = n := length_take_of_le hn
  have hok := h.recv
  unfold State.take
  split
  · rename_i hidle
    rw [hidle] at hwanted
    obtain rfl := Nat.le_zero.mp hwanted
    exact h
  · rename_i maxLen head hrecv
    rw [hrecv] at hwanted hok hcap
    change n ≤ 4 - head.length at hwanted
    change head.length < 4 at hok
    have htaken : s.recv.taken ++ s.wire.take n = head ++ s.wire.take n := by
      rw [hrecv]
      rfl
    split
    · rename_i hfull
      unfold State.headed
      rw [hcap, if_neg (by omega), if_pos rfl]
      split
      · rename_i hzero
        exact h.finish (by rw [htaken, append_nil]) hfull hzero.symm
      · rename_i hpos
        refine h.take ⟨hfull, Nat.pos_of_ne_zero hpos⟩ ?_
        rw [htaken]
        exact (append_nil _).symm
    · rename_i hshort
      refine h.take ?_ htaken
      change (head ++ s.wire.take n).length < 4
      rw [length_append] at hshort ⊢
      omega
  · rename_i head data hrecv
    rw [hrecv] at hwanted hok
    obtain ⟨hhead, hdata⟩ := hok
    have hle : n ≤ hdrLen head - data.length := by
      refine le_trans hwanted ?_
      change ioChunk _ ≤ _
      unfold ioChunk
      split <;> omega
    have htaken : s.recv.taken ++ s.wire.take n = head ++ (data ++ s.wire.take n) := by
      rw [hrecv, ← append_assoc]
      rfl
    split
    · rename_i hfull
      exact h.finish htaken hhead hfull
    · rename_i hshort
      refine h.take ⟨hhead, ?_⟩ htaken
      rw [length_append] at hshort ⊢
      omega

end

theorem uncapped_take {bytes : List UInt8} {alloc : Bool} (hcap : s.recv.uncapped) :
    (s.take bytes alloc).recv.uncapped := by
  unfold State.take
  split
  · exact hcap
  · rename_i maxLen head hrecv
    rw [hrecv] at hcap
    split
    · unfold State.headed
      split
      · trivial
      · split
        · trivial
        · split <;> trivial
    · exact hcap
  · split <;> trivial

theorem Aligned.read {o : Read} (h : Aligned s) (hcap : s.recv.uncapped)
    (hplain : (Act.read o).plain = true) (hpatient : s.patient (.read o) = true)
    (hs' : s.read o = some s') : Aligned s' ∧ s'.recv.uncapped := by
  unfold State.read at hs'
  split at hs'
  · cases hs'
  · split at hs'
    · rename_i n alloc
      split at hs' <;> cases hs'
      rename_i hn
      obtain rfl : alloc = true := hplain
      exact ⟨h.count hcap hn.2.1 hn.2.2, uncapped_take hcap⟩
    · cases hs'
      exact ⟨h, hcap⟩
    · cases hs'
      exact ⟨h, hcap⟩
    · -- the deadline: nothing has been read, so nothing is lost
      cases hs'
      have hnil : s.recv.taken = [] := of_decide_eq_true hpatient
      have hstream := h.stream
      rw [hnil] at hstream
      exact ⟨⟨hstream, trivial, h.sent_le, h.got_le⟩, trivial⟩
    · cases hplain
    · cases hplain

theorem Aligned.step {a : Act} (h : Aligned s ∧ s.recv.uncapped) (hplain : a.plain = true)
    (hpatient : s.patient a = true) (hs' : system.step s a = some s') :
    Aligned s' ∧ s'.recv.uncapped := by
  obtain ⟨h, hcap⟩ := h
  cases a with
  | send iov =>
    refine ⟨h.send hs', ?_⟩
    unfold system State.send at hs'
    dsimp only at hs'
    split at hs'
    · cases hs'
    · split at hs' <;> cases hs' <;> exact hcap
  | write o =>
    refine ⟨h.write hplain hs', ?_⟩
    unfold system State.write at hs'
    dsimp only at hs'
    split at hs'
    · cases hs'
    · split at hs'
      · split at hs' <;> cases hs'
        exact hcap
      all_goals
        cases hs'
        exact hcap
  | receive maxLen =>
    refine ⟨h.receive hs', ?_⟩
    unfold system State.receive at hs'
    dsimp only at hs'
    split at hs' <;> cases hs'
    change maxLen = 0
    exact of_decide_eq_true hplain
  | read o => exact h.read hcap hplain hpatient hs'

/-- The frames returned with `XTC_OK` are those sent, in order and with nothing skipped: with no cap
on their length, no failed allocation and no error or end of the connection, as long as no call
reaches its deadline inside a frame. -/
theorem frames_received_in_order
    (hs : system.ReachableUnder (fun s a => a.plain = true ∧ s.patient a = true) s) :
    s.got <+: s.sent := by
  have h : Aligned s ∧ s.recv.uncapped := by
    refine hs.invariant (I := fun s => Aligned s ∧ s.recv.uncapped) ?_ ?_
    · rintro s rfl
      exact ⟨⟨rfl, trivial, by simp [State.create], by simp [State.create]⟩, trivial⟩
    · rintro s a s' h ⟨hplain, hpatient⟩ hs'
      exact Aligned.step h hplain hpatient hs'
  refine encode_selfDelimiting.isPrefix (x := s.recv.taken ++ (s.wire ++ s.rest)) h.1.got_le
    h.1.sent_le ?_
  rw [← h.1.stream, append_assoc, append_assoc]

/-- Two frames, the first from two pieces, in short writes and reads around a call that finds
nothing. -/
theorem frames_received_in_order_short :
    ∃ s, system.ReachableUnder (fun s a => a.plain = true ∧ s.patient a = true) s ∧
      s.got = [[7, 8], []] ∧ s.got <+: s.sent := by
  refine System.exists_reachable
    [.receive 0, .read .expired, .send [[7], [], [8]], .write (.count 5), .write .again,
      .receive 0, .read (.count 3 true), .read .intr, .read (.count 1 true),
      .read (.count 1 true), .write (.count 1), .send [], .write (.count 4),
      .read (.count 1 true), .receive 0, .read (.count 4 true)] rfl (by decide) fun s hs _ => ?_
  exact frames_received_in_order hs

/-- A call reads the length of a frame and reaches its deadline. The next one reads the payload as
a frame. -/
theorem expired_receive_loses_boundary :
    ∃ s ∈ system.runUnder (fun _ a => a.plain = true) State.create
      [.send [[0, 0, 0, 1, 42]], .write (.count 9), .receive 0, .read (.count 4 true),
        .read .expired, .receive 0, .read (.count 4 true), .read (.count 1 true)],
      s.got = [[42]] ∧ s.sent = [[0, 0, 0, 1, 42]] ∧ ¬ s.got <+: s.sent := by
  decide

end LibXtc.Frame
