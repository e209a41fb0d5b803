import LibXtc.Foundations.Runs

/-!
# The operation log of the left-right lock

A writer applies operations to the write copy and logs them. A publish swaps the copies and brings
the stale one up to date, by replaying the log or with the sync function. As long as the write copy
has the logged operations exactly once, the copy that is swapped in has every operation once.
-/

namespace LibXtc.LrLock

open Foundations

variable {D O : Type}

/-- The lock: its options, the two copies, the log and the flags. -/
structure State (D O : Type) where
  cow : Bool
  /-- There is a `sync_fn`. -/
  sync : Bool
  dataSize : ℕ
  read : D
  /-- The other copy, if it is allocated. -/
  write : Option D
  oplog : List O
  firstPublishDone : Bool
  writerOwned : Bool
  /-- The write copy was made or brought up to date since it was last given to the system. -/
  fresh : Bool
  /-- The operations passed to `xtc_lrlock_apply_op`. -/
  applied : List O

/-- The calls of a writer. The allocator answers `ok`, and `junk` is what the system leaves in the
stale copy of a copy-on-write lock after `madvise`. -/
inductive Act (D O : Type)
  | writeBegin (ok : Bool)
  | applyOp (op : O) (ok : Bool)
  | publish (full : Bool) (junk : D)
  | writeEnd

/-- `xtc_lrlock_create_ex`, on data that both copies have. -/
def create (init : D) (cow sync : Bool) (dataSize : ℕ) : State D O :=
  ⟨cow, sync, dataSize, init, if cow then none else some init, [], false, false, !cow, []⟩

namespace State

variable (apply : D → O → D) (s : State D O)

/-- The write copy as the swap finds it. The first publish brings it in sync with the read copy and
replays the log, on a copy that has the operations if there is no sync function. -/
def incoming (full : Bool) (w : D) : D :=
  if s.firstPublishDone || full then w
  else s.oplog.foldl apply (if s.sync then s.read else w)

/-- The copy that was the read copy, brought up to date with `new`. -/
def stale (full : Bool) (new : D) : D :=
  if full then if s.sync then new else s.read
  else if s.oplog.length * 256 ≤ s.dataSize || !s.sync then s.oplog.foldl apply s.read
  else new

def writeBegin (ok : Bool) : State D O :=
  if s.cow || s.write.isNone then
    if s.write.isSome || ok then
      { s with write := some s.read, writerOwned := true, fresh := true }
    else s
  else { s with writerOwned := true }

/-- An operation that finds no room in the log is dropped. -/
def applyOp (op : O) (ok : Bool) : State D O :=
  if ok then
    { s with
      oplog := s.oplog ++ [op]
      write := s.write.map (apply · op)
      applied := s.applied ++ [op] }
  else { s with applied := s.applied ++ [op] }

def publish (full : Bool) (junk w : D) : State D O :=
  let new := s.incoming apply full w
  { s with
    read := new
    write := some (if s.cow then junk else s.stale apply full new)
    oplog := []
    firstPublishDone := true
    fresh := !s.cow }

/-- A writer waits for the mutex before its session, and the other calls are made in one. -/
def act : Act D O → Option (State D O)
  | .writeBegin ok => if s.writerOwned then none else some (s.writeBegin ok)
  | .applyOp op ok => if s.writerOwned then some (s.applyOp apply op ok) else none
  | .publish full junk =>
    if s.writerOwned then s.write.map (s.publish apply full junk) else none
  | .writeEnd => if s.writerOwned then some { s with writerOwned := false } else none

/-- A copy-on-write session begins with an empty log and publishes once. The log has room. And a
publish that replays the log on the write copy, or leaves the stale copy behind, needs a sync
function unless the log is empty. -/
def once : Act D O → Bool
  | .writeBegin _ => !s.cow || s.oplog.isEmpty
  | .applyOp _ ok => ok
  | .publish full _ =>
    s.fresh && (s.sync || s.oplog.isEmpty || if full then s.cow else s.firstPublishDone)
  | .writeEnd => true

end State

def system (apply : D → O → D) (init : D) : System (State D O) (Act D O) where
  init s := ∃ cow sync dataSize, s = create init cow sync dataSize
  step s a := s.act apply a

section

variable {apply : D → O → D} {init : D} {s s' : State D O} {a : Act D O}

/-- The operations are in the read copy or in the log, and the write copy has them all. -/
structure Ok (apply : D → O → D) (init : D) (s : State D O) : Prop where
  logged : ∃ done, s.applied = done ++ s.oplog ∧ s.read = done.foldl apply init
  write : s.fresh = true → s.write = some (s.applied.foldl apply init)
  fresh : s.cow = false → s.fresh = true

section

variable (h : Ok apply init s)
include h

theorem Ok.replay : s.oplog.foldl apply s.read = s.applied.foldl apply init := by
  obtain ⟨done, happlied, hread⟩ := h.logged
  rw [happlied, hread, List.foldl_append]

theorem Ok.read_eq (hnil : s.oplog = []) : s.read = s.applied.foldl apply init := by
  rw [← h.replay, hnil]
  rfl

theorem Ok.writeBegin {ok : Bool} (hok : s.cow = true → s.oplog = []) :
    Ok apply init (s.writeBegin ok) := by
  unfold State.writeBegin
  split
  · rename_i hcopy
    split
    · have hnil : s.oplog = [] := by
        cases hcow : s.cow with
        | true => exact hok hcow
        | false =>
          rw [hcow, h.write (h.fresh hcow)] at hcopy
          cases hcopy
      exact ⟨h.logged, fun _ => congrArg some (h.read_eq hnil), fun _ => rfl⟩
    · exact h
  · exact { h with }

theorem Ok.applyOp (op : O) : Ok apply init (s.applyOp apply op true) := by
  obtain ⟨done, happlied, hread⟩ := h.logged
  refine ⟨⟨done, ?_, hread⟩, fun hfresh => ?_, h.fresh⟩
  · show s.applied ++ [op] = done ++ (s.oplog ++ [op])
    rw [happlied, List.append_assoc]
  · show s.write.map (apply · op) = some ((s.applied ++ [op]).foldl apply init)
    rw [h.write hfresh, List.foldl_append]
    rfl

/-- What a publish makes of the copies. -/
theorem Ok.publish {full : Bool} {junk w : D} (hw : s.write = some w)
    (hok : s.once (.publish full junk) = true) :
    (s.publish apply full junk w).read = s.applied.foldl apply init ∧ (s.cow = false →
      (s.publish apply full junk w).write = some (s.applied.foldl apply init)) := by
  obtain ⟨hfresh, hcan⟩ := Bool.and_eq_true_iff.mp hok
  have hfull : w = s.applied.foldl apply init := Option.some.inj (hw.symm.trans (h.write hfresh))
  have hnew : s.incoming apply full w = s.applied.foldl apply init := by
    unfold State.incoming
    split
    · exact hfull
    · split
      · exact h.replay
      · have hnil : s.oplog = [] := by simp_all
        rw [hnil]
        exact hfull
  refine ⟨hnew, fun hcow => congrArg some ?_⟩
  rw [hcow, hnew, if_neg Bool.false_ne_true]
  unfold State.stale
  split
  · split
    · rfl
    · exact h.read_eq (by simp_all)
  · split
    · exact h.replay
    · rfl

theorem Ok.act (hok : s.once a = true) (hs' : s.act apply a = some s') : Ok apply init s' := by
  cases a <;> simp only [State.act] at hs' <;> split at hs' <;> try cases hs'
  case writeBegin ok hfree =>
    refine h.writeBegin fun hcow => ?_
    simpa [State.once, hcow] using hok
  case applyOp op ok howned =>
    cases hok
    exact h.applyOp op
  case publish full junk howned =>
    obtain ⟨w, hw, rfl⟩ := Option.map_eq_some_iff.mp hs'
    obtain ⟨hread, hwrite⟩ := h.publish hw hok
    refine ⟨⟨s.applied, (List.append_nil _).symm, hread⟩, fun hfresh => hwrite ?_, fun hcow => ?_⟩
    · simpa [State.publish] using hfresh
    · simpa [State.publish] using hcow
  case writeEnd howned => exact { h with }

end

/-- After a publish the read copy has every operation exactly once and in order, and without
copy-on-write the two copies are equal. -/
theorem operations_take_effect_once {full : Bool} {junk : D}
    (hreach : (system apply init).ReachableUnder (fun s a => s.once a = true) s)
    (hok : s.once (.publish full junk) = true)
    (hs' : (system apply init).step s (.publish full junk) = some s') :
    s'.read = s'.applied.foldl apply init ∧ (s'.cow = false → s'.write = some s'.read) := by
  have h : Ok apply init s := by
    refine hreach.invariant ?_ fun _ _ _ h hok hstep => h.act hok hstep
    rintro _ ⟨cow, sync, dataSize, rfl⟩
    refine ⟨⟨[], rfl, rfl⟩, fun hfresh => ?_, fun hcow => ?_⟩
    · have hcow : cow = false := by simpa [create] using hfresh
      rw [hcow]
      rfl
    · simpa [create] using hcow
  change (if s.writerOwned then _ else _) = _ at hs'
  split at hs'
  · obtain ⟨w, hw, rfl⟩ := Option.map_eq_some_iff.mp hs'
    obtain ⟨hread, hwrite⟩ := h.publish hw hok
    exact ⟨hread, fun hcow => (hwrite hcow).trans (congrArg some hread.symm)⟩
  · cases hs'

end

/-- Lists of numbers, and operations that append one. -/
def appends : System (State (List ℕ) ℕ) (Act (List ℕ) ℕ) := system (fun d o => d ++ [o]) []

/-- A session that is not published, and one that publishes the operations of both. -/
theorem operations_take_effect_once_twoSessions :
    ∃ s s', appends.step s (.publish false []) = some s' ∧ s'.read = [1, 2] ∧
      s'.write = some [1, 2] := by
  obtain ⟨s, hrun, s', hs', happlied, hcow, hok⟩ : ∃ s ∈ appends.runUnder
      (fun s a => s.once a = true) (create [] false true 4096)
      [.writeBegin true, .applyOp 1 true, .writeEnd, .writeBegin true, .applyOp 2 true],
      ∃ s' ∈ appends.step s (.publish false []),
        s'.applied = [1, 2] ∧ s'.cow = false ∧ s.once (.publish false []) = true := by
    decide
  have hinit : appends.init (create [] false true 4096) := ⟨_, _, _, rfl⟩
  obtain ⟨hread, hwrite⟩ := operations_take_effect_once (.runUnder (.start hinit) hrun) hok hs'
  have hread : s'.read = [1, 2] := by
    rw [hread, happlied]
    rfl
  exact ⟨s, s', hs', hread, (hwrite hcow).trans (congrArg some hread)⟩

/-- Without a sync function the first publish applies the log twice, and a full-sync publish leaves
a stale copy that the next publish swaps in. With copy-on-write a session that is not published is
lost, and a second publish swaps in what the system left of the stale copy. -/
theorem operations_lost_or_repeated : (∃ s ∈ appends.run (create [] false false 4096)
      [.writeBegin true, .applyOp 1 true, .publish false []],
      s.applied = [1] ∧ s.read = [1, 1]) ∧ (∃ s ∈ appends.run (create [] false false 4096)
      [.writeBegin true, .applyOp 1 true, .publish true [], .publish false []],
      s.applied = [1] ∧ s.read = []) ∧ (∃ s ∈ appends.run (create [] true true 4096)
      [.writeBegin true, .publish false [], .writeEnd, .writeBegin true, .applyOp 1 true, .writeEnd,
        .writeBegin true, .publish false []], s.applied = [1] ∧ s.read = []) ∧
    ∃ s ∈ appends.run (create [] true true 4096)
      [.writeBegin true, .applyOp 1 true, .publish false [], .publish false []],
      s.applied = [1] ∧ s.read = [] := by
  decide

end LibXtc.LrLock
