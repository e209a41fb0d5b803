import Mathlib.Data.Int.Notation
import LibXtc.Foundations.Heap

/-!
# The wait-for graph of the deadlock detector

The graph that `xtc_lockmgr_check_deadlocks` builds, its depth-first search `__dd_dfs` and the
choice of a victim `__dd_pick_victim`. The out-edges of a node are a list with the newest edge
first, as the source threads them through its edge array. `rand()` and the user's callback are
arguments.
-/

namespace LibXtc.LockMgr

open Foundations

/-- `struct locker_rec`. -/
structure LockerRec where
  id : ℕ
  ctimeNs : ℤ
  timeoutNs : ℤ
  deadlineNs : ℤ
  nHeld : ℤ
  nWriteHeld : ℤ
  failed : Bool
  deriving DecidableEq

/-- `xtc_lock_victim_policy_t`. -/
inductive VictimPolicy
  | default | random | oldest | youngest | minLocks | maxLocks | minWrite | maxWrite
  | expire | custom
  deriving DecidableEq

/-- `struct dd_node`, with the targets of its out-edges. -/
structure DdNode where
  id : ℕ
  ctime : ℤ
  nHeld : ℤ
  nWriteHeld : ℤ
  expired : Bool
  out : List ℕ
  deriving DecidableEq

/-- `struct dd_state`. -/
structure DdState where
  nodes : List DdNode
  nEdges : ℕ
  deriving DecidableEq

/-- `MAX_LOCKERS`. -/
def maxLockers : ℕ := 4096

namespace DdState

/-- The graph before any object was scanned. -/
def empty : DdState := ⟨[], 0⟩

/-- The out-edges of node `u`. -/
def out (st : DdState) (u : ℕ) : List ℕ := (st.nodes[u]?.map (·.out)).getD []

/-- The node for a locker that has none yet. -/
def newNode (id : ℕ) (lr : Option LockerRec) (now : ℤ) : DdNode where
  id := id
  ctime := (lr.map (·.ctimeNs)).getD 0
  nHeld := (lr.map (·.nHeld)).getD 0
  nWriteHeld := (lr.map (·.nWriteHeld)).getD 0
  expired := lr.any fun r => 0 < r.deadlineNs && r.deadlineNs < now
  out := []

/-- `__dd_node_idx`: the index of a locker's node, added if there is room. -/
def nodeIdx (st : DdState) (id : ℕ) (lr : Option LockerRec) (now : ℤ) : DdState × Option ℕ :=
  match st.nodes.findIdx? (·.id == id) with
  | some i => (st, some i)
  | none =>
    if maxLockers ≤ st.nodes.length then (st, none)
    else ({ st with nodes := st.nodes ++ [newNode id lr now] }, some st.nodes.length)

/-- `__dd_add_edge`: nothing for a missing node, a full table or an edge already there. -/
def addEdge (st : DdState) (src dst : Option ℕ) : DdState :=
  match src, dst with
  | some u, some v =>
    if maxLockers * 8 ≤ st.nEdges ∨ v ∈ st.out u then st
    else
      { nodes := st.nodes.modify u fun n => { n with out := v :: n.out }
        nEdges := st.nEdges + 1 }
  | _, _ => st

/-- `nodes[u].out_first = -1`. -/
def cut (st : DdState) (u : ℕ) : DdState :=
  { st with nodes := st.nodes.modify u fun n => { n with out := [] } }

end DdState

/-! ## Depth-first search -/

/-- The colours 0, 1 and 2 of the search. -/
inductive Colour
  | white | grey | black
  deriving DecidableEq, Inhabited

/-- The arrays of the search. -/
structure DfsState where
  colour : Heap Colour
  parent : Heap (Option ℕ)
  cycleIn : Option ℕ
  deriving DecidableEq

namespace DfsState

/-- All nodes white, no parents. -/
def start : DfsState := ⟨.empty, .empty, none⟩

/-- Colour one node. -/
def paint (d : DfsState) (u : ℕ) (c : Colour) : DfsState := { d with colour := d.colour.set u c }

/-- `parent[v] = u`. -/
def setParent (d : DfsState) (v u : ℕ) : DfsState :=
  { d with parent := d.parent.set v (some u) }

end DfsState

/-- The loop of `__dd_dfs` over the out-edges of `u`, with `visit` for the recursive call. -/
def scanEdges (visit : ℕ → DfsState → DfsState × Bool) (u : ℕ) :
    List ℕ → DfsState → DfsState × Bool
  | [], d => (d, false)
  | v :: rest, d =>
    match d.colour.get v with
    | .grey => ({ d with cycleIn := some u }, true)
    | .white =>
      let r := visit v (d.setParent v u)
      if r.2 then r else scanEdges visit u rest r.1
    | .black => scanEdges visit u rest d

/-- `__dd_dfs`. Each call colours a white node, so a graph of `n` nodes needs fuel `n`. -/
def dfs (st : DdState) : ℕ → ℕ → DfsState → DfsState × Bool
  | 0, _, d => (d, false)
  | fuel + 1, u, d =>
    let r := scanEdges (dfs st fuel) u (st.out u) (d.paint u .grey)
    if r.2 then r else (r.1.paint u .black, false)

/-- The loop of the detector over the start nodes of the search. -/
def searchFrom (st : DdState) : List ℕ → DfsState → DfsState
  | [], d => d
  | i :: rest, d =>
    if d.colour.get i = .white then
      let r := dfs st st.nodes.length i d
      if r.2 then r.1 else searchFrom st rest r.1
    else searchFrom st rest d

/-- One search of the whole graph. -/
def DdState.search (st : DdState) : DfsState :=
  searchFrom st (List.range st.nodes.length) .start

/-! ## The choice of a victim -/

/-- The walk from `u` up the parent links: the nodes met, and the node at which it stops, which is
a node without a parent or `cycleIn` met again. -/
def parentWalk (parent : Heap (Option ℕ)) (cycleIn : ℕ) : ℕ → ℕ → List ℕ × ℕ
  | 0, u => ([u], u)
  | fuel + 1, u =>
    match parent.get u with
    | none => ([u], u)
    | some p =>
      if p = cycleIn then ([u], p)
      else
        let r := parentWalk parent cycleIn fuel p
        (u :: r.1, r.2)

/-- `__dd_score`; `rand` is the value `rand()` returns in this call. -/
def ddScore (policy : VictimPolicy) (n : DdNode) (rand : ℤ) : ℤ :=
  match policy with
  | .oldest => -n.ctime
  | .youngest => n.ctime
  | .minLocks => -n.nHeld
  | .maxLocks => n.nHeld
  | .minWrite => -n.nWriteHeld
  | .maxWrite => n.nWriteHeld
  | .expire => if n.expired then 1 else -1
  | .random | .default | .custom => rand

/-- The scoring loop of `__dd_pick_victim`: the best node so far, its score and `seen_any`. -/
def scoreLoop (policy : VictimPolicy) (st : DdState) (rand : ℕ → ℤ) :
    List ℕ → ℕ → ℕ × ℤ × Bool → ℕ × ℤ × Bool
  | [], _, best => best
  | u :: rest, call, (victim, score, seen) =>
    match st.nodes[u]? with
    | none => scoreLoop policy st rand rest (call + 1) (victim, score, seen)
    | some n =>
      let s := ddScore policy n (rand call)
      let better :=
        if policy = .expire then n.expired && (!seen || decide (score < s))
        else decide (score < s)
      scoreLoop policy st rand rest (call + 1)
        (if better then (u, s, seen || policy == .expire) else (victim, score, seen))

/-- The default scoring of `__dd_pick_victim`, begun at node `u`. -/
def pickByScore (policy : VictimPolicy) (st : DdState) (parent : Heap (Option ℕ))
    (cycleIn u : ℕ) (rand : ℕ → ℤ) : Option ℕ :=
  let first := (st.nodes[u]?.map fun n => ddScore policy n (rand 0)).getD 0
  let walk := (parentWalk parent cycleIn st.nodes.length u).1
  let best := scoreLoop policy st rand walk 1 (cycleIn, first, false)
  if policy = .expire ∧ best.2.2 = false then none else some best.1

/-- `__dd_pick_victim`. `pick` is the user's callback, called for `XTC_LOCK_VICTIM_CUSTOM` with
at most 64 candidates; a bad answer falls through to the scoring, from where the walk stopped. -/
def pickVictim (policy : VictimPolicy) (pick : Option (List ℕ → ℤ)) (st : DdState)
    (parent : Heap (Option ℕ)) (cycleIn : ℕ) (rand : ℕ → ℤ) : Option ℕ :=
  match policy, pick with
  | .custom, some f =>
    let walk := parentWalk parent cycleIn st.nodes.length cycleIn
    let cand := walk.1.take 64
    let answer := f cand
    if 0 ≤ answer ∧ answer < cand.length then cand[answer.toNat]?
    else pickByScore policy st parent cycleIn walk.2 rand
  | _, _ => pickByScore policy st parent cycleIn cycleIn rand

end LibXtc.LockMgr
