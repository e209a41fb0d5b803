import LibXtc.LockMgr.Detector
import LibXtc.LockMgr.Wakeup

/-!
# Releasing all locks of a locker

`xtc_lock_release_all` flags the waiters of its locker in a partition and then releases what it
holds there. The releases promote waiters, also those just flagged.
-/

namespace LibXtc.LockMgr

open Foundations List

variable {c : Config} {s s' : Manager} {locker i : ℕ}

section

variable {m : ConflictMatrix} {v : ObjView} {as : List ℕ} {r : Req}

/-- What is left of a locker is flagged; promotion may have granted it meanwhile. -/
theorem aborted_releaseEach
    (hgranted : ∀ r ∈ v.granted, r.locker = locker → r.aborted = true ∨ r.addr ∈ as)
    (hwaiting : ∀ r ∈ v.waiting, r.locker = locker → r.aborted = true) (g : Bool) :
    ∀ r ∈ (v.releaseEach m as).side g, r.locker = locker → r.aborted = true := by
  induction as generalizing v with
  | nil =>
    cases g with
    | false => exact hwaiting
    | true => exact fun r hr hl => (hgranted r hr hl).resolve_right not_mem_nil
  | cons a as ih =>
    obtain ⟨taken, hwait, hgrant⟩ := promoteList_split (m := m) (without a v.granted) v.waiting
    refine ih (v := v.release m a) (fun r hr hl => ?_) fun r hr =>
      hwaiting r (hwait ▸ mem_append_right _ hr)
    rcases mem_append.mp (hgrant ▸ hr : r ∈ taken.reverse ++ _) with hr | hr
    · exact .inl (hwaiting r (hwait ▸ mem_append_left _ (mem_reverse.mp hr)) hl)
    · obtain ⟨hr, hne⟩ := mem_filter.mp hr
      exact (hgranted r hr hl).imp_right fun h => (mem_cons.mp h).resolve_left (by simpa using hne)

theorem mem_releaseEach (hr : r ∈ v.granted) (has : r.addr ∉ as) :
    r ∈ (v.releaseEach m as).granted := by
  induction as generalizing v with
  | nil => exact hr
  | cons a as ih =>
    refine ih (mem_promoteList (mem_filter.mpr ⟨hr, ?_⟩)) (not_mem_of_not_mem_cons has)
    simpa using ne_of_not_mem_cons has

end

/-- After `xtc_lock_release_all` on a partition every request the locker still has there is
flagged, and the locks of all others are as they were. -/
theorem release_all_spec (hs : (lockSystem c).ReachableUnder (StepOk c) s)
    (hstep : (lockSystem c).step s (.releasePart locker i) = some s') :
    (∀ k, c.part k = i → ∀ g, ∀ r ∈ (s'.view k).side g, r.locker = locker → r.aborted = true) ∧
    ∀ k, ∀ r ∈ (s.view k).granted, r.locker ≠ locker → r ∈ (s'.view k).granted := by
  have h := sound_of_reachable hs
  obtain ⟨t, ht, -, hrep⟩ := h.represents.dropLockerOn_spec (c := c) locker (h.keys.filter _)
  obtain ⟨-, hdrop⟩ := Option.ite_none_right_eq_some.mp hstep
  obtain rfl := Option.some.inj (ht.symm.trans hdrop)
  rw [hrep.view_eq]
  dsimp only
  refine ⟨fun k hpart g r hr hlocker => ?_, fun k r hr hne => ?_⟩
  · split at hr
    · refine aborted_releaseEach (fun q hq hl => .inr ?_) (fun q hq hl => ?_) g r hr hlocker
      · exact mem_map_of_mem (mem_filter.mpr ⟨hq, by simpa using hl⟩)
      · obtain ⟨w, -, rfl⟩ := mem_map.mp hq
        split at hl <;> simp_all
    · rename_i hk
      have hside := (Bool.exists_bool (p := (r ∈ (s.view k).side ·))).mp ⟨g, hr⟩
      have hkeys := h.represents.mem_keys (mem_append.mpr hside)
      exact absurd (mem_filter.mpr ⟨hkeys, by simpa using hpart⟩) hk
  · split
    · refine mem_releaseEach hr fun hmem => hne ?_
      obtain ⟨q, hq, haddr⟩ := mem_map.mp hmem
      obtain ⟨hq, hl⟩ := mem_filter.mp hq
      obtain rfl := inj_on_of_nodup_map (h.represents.nodup_granted k) hq hr haddr
      simpa using hl
    · exact hr

/-- The second locker is dropped and the third one granted. -/
theorem release_all_spec_putPromotes :
    ∃ s ∈ (lockSystem .default).runUnder (StepOk .default) .create putPromotes,
      (∃ s' ∈ (lockSystem .default).step s (.releasePart 2 (Config.default.part [1])),
        (s'.entry 2).granted = true) ∧
      ∃ s' ∈ (lockSystem .default).step s (.releasePart 2 (Config.default.part [1])),
        ∀ g, ∀ r ∈ (s'.view [1]).side g, r.locker = 2 → r.aborted = true := by
  refine System.exists_run rfl (by decide) fun s _ hs hstep => ?_
  obtain ⟨s', hs', -⟩ := hstep
  exact ⟨s', hs', (release_all_spec hs hs').1 [1] rfl⟩

end LibXtc.LockMgr
