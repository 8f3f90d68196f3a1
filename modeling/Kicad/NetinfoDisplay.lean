import Kicad.NetinfoRemoval

/-!
# The display-name cache

`RebuildDisplayNetnames` gives each net its short name, unless another net
shares it, and clears `m_DisplayNetnamesDirty`; every change to the set of
nets is meant to set the flag again. `RemoveNet` sets it only when the net is
found in `m_netCodes`, so once the indices disagree a removal from
`m_netNames` alone leaves a stale cache marked clean. While the indices agree,
as they do whenever the assertions of `AppendNet` hold, the cache is never
served stale.
-/

set_option autoImplicit false

namespace Kicad.NetinfoList

/-- The cache is sound: when it is marked clean, every net the list iterates
over has the display name `RebuildDisplayNetnames` would give it now. -/
def DisplayCacheSound (unescapeString : String → String) (s : NetinfoList) : Prop :=
  s.displayNetnamesDirty = false → ∀ e ∈ s.netNames.entries,
    (s.items e.2).displayNetname = ((s.rebuildDisplayNetnames unescapeString).items e.2).displayNetname

instance (unescapeString : String → String) (s : NetinfoList) :
    Decidable (DisplayCacheSound unescapeString s) :=
  inferInstanceAs (Decidable (_ → _))

def staleDisplayRun : List Op := occupiedCodeRun++[.rebuild, .remove 3]

theorem removeNet_leaves_stale_display :
    (run id staleDisplayRun create).displayNetnamesDirty = false ∧
      ((run id staleDisplayRun create).items 2).displayNetname = "/B/N" ∧
      (((run id staleDisplayRun create).rebuildDisplayNetnames id).items 2).displayNetname = "N" ∧
      ¬DisplayCacheSound id (run id staleDisplayRun create) := by
  decide

section Cache
variable (unescapeString : String → String)

/-- The cache, when marked clean, gives every net of `m_netNames` the display
name its names choose under the current short-name counts. -/
def CacheClean (s : NetinfoList) : Prop :=
  s.displayNetnamesDirty = false → ∀ e ∈ s.netNames.entries,
    (s.items e.2).displayNetname = displayNetname unescapeString s.countShortNames (s.items e.2)

theorem displayCacheSound_iff {s : NetinfoList} :
    DisplayCacheSound unescapeString s ↔ CacheClean unescapeString s := by
  refine imp_congr_right fun _ => forall₂_congr fun e he => ?_
  rw [rebuildDisplayNetnames_items_eq, if_pos (List.mem_map_of_mem _ he)]

namespace CacheClean
variable {unescapeString} {s : NetinfoList}

theorem frame {t : NetinfoList} (h : CacheClean unescapeString s)
    (hd : t.displayNetnamesDirty = s.displayNetnamesDirty) (hn : t.netNames = s.netNames)
    (hi : ∀ e ∈ s.netNames.entries, (t.items e.2).netname = (s.items e.2).netname ∧
      (t.items e.2).shortNetname = (s.items e.2).shortNetname ∧
      (t.items e.2).displayNetname = (s.items e.2).displayNetname) :
    CacheClean unescapeString t := by
  intro hf e he
  rw [hn] at he
  obtain ⟨h₁, h₂, h₃⟩ := hi e he
  rw [h₃, h (hd ▸ hf) e he, countShortNames_congr hn fun e he => (hi e he).2.1]
  simp only [displayNetname, h₁, h₂]

theorem setItem (h : CacheClean unescapeString s) {p : Ptr} {it : NetinfoItem}
    (hit : it.netname = (s.items p).netname ∧ it.shortNetname = (s.items p).shortNetname ∧
      it.displayNetname = (s.items p).displayNetname) :
    CacheClean unescapeString (s.setItem p it) :=
  h.frame rfl rfl fun e _ => by
    by_cases hp : e.2 = p
    · simpa [NetinfoList.setItem, hp] using hit
    · simp [NetinfoList.setItem, hp]

theorem appendNet (h : CacheClean unescapeString s) (p : Ptr) : CacheClean unescapeString (s.appendNet p) := by
  cases hq : s.getNetItemByName (s.items p).netname with
  | some q => rw [appendNet_of_merge hq]; exact h.setItem ⟨rfl, rfl, rfl⟩
  | none => rw [appendNet_of_new hq]; intro hf; cases hf

theorem alloc (hw : WellKeyed s) (h : CacheClean unescapeString s) (it : NetinfoItem) :
    CacheClean unescapeString (s.alloc it).1 :=
  h.frame rfl rfl fun e he => by
    rw [alloc_items_of_ne it (ne_of_lt (hw.allocated e he))]
    exact ⟨rfl, rfl, rfl⟩

theorem removeNet (hc : NamesCoded s) (h : CacheClean unescapeString s) (p : Ptr) :
    CacheClean unescapeString (s.removeNet p) := by
  unfold NetinfoList.removeNet
  split
  · intro hf; cases hf
  · rename_i hp
    have hn : s.netNames.holds p = false := Bool.eq_false_iff.2 fun hh =>
      let ⟨n, hn⟩ := StdMap.holds_iff.1 hh
      hp (StdMap.holds_iff.2 (hc (n, p) hn))
    exact h.frame rfl (StdMap.eraseValue_of_not_holds hn) fun _ _ => ⟨rfl, rfl, rfl⟩

theorem removeUnusedNets (hw : WellKeyed s) (hc : NamesCoded s) (h : CacheClean unescapeString s)
    (c : Option BoardCommit) : CacheClean unescapeString (s.removeUnusedNets c).1 := by
  by_cases hall : ∀ e ∈ s.netCodes.entries, (s.items e.2).isCurrent = true
  · have hany : (s.netCodes.entries.any fun e => !(s.items e.2).isCurrent) = false := by
      simpa using hall
    refine h.frame (by rw [removeUnusedNets_fst, hany, Bool.or_false]) (StdMap.eq_of_mem_iff fun x => ?_)
      fun _ _ => by simp only [removeUnusedNets_fst, and_self]
    rw [((indicesAgree_iff hw).mpr hc).mem_removeUnusedNets_netNames]
    exact ⟨And.left, fun hx => ⟨hx, let ⟨_, hk⟩ := hc x hx; hall _ hk⟩⟩
  · intro hf
    rw [removeUnusedNets_fst] at hf
    simp only [Bool.or_eq_false_iff, List.any_eq_false, Bool.not_eq_false'] at hf
    exact absurd (fun e he => by simpa using hf.2 e he) hall

theorem rebuildDisplayNetnames (s : NetinfoList) :
    CacheClean unescapeString (s.rebuildDisplayNetnames unescapeString) := by
  intro _ e he
  have hcount : (s.rebuildDisplayNetnames unescapeString).countShortNames = s.countShortNames :=
    countShortNames_congr rfl fun e _ => by
      obtain ⟨d, hd⟩ := rebuildDisplayNetnames_items unescapeString s e.2
      rw [hd]
  have hin : e.2 ∈ s.netNames.entries.map Prod.snd := List.mem_map_of_mem _ he
  rw [hcount, rebuildDisplayNetnames_items_eq, if_pos hin]
  rfl

theorem step (hw : WellKeyed s) (hc : NamesCoded s) (h : CacheClean unescapeString s) (op : Op) :
    CacheClean unescapeString (step unescapeString op s) := by
  cases op with
  | appendNew it => exact (h.alloc hw it).appendNet _
  | append p =>
    simp only [NetinfoList.step]
    split
    · exact h.appendNet p
    · exact h
  | remove p => exact h.removeNet hc p
  | removeUnused c => exact h.removeUnusedNets hw hc _
  | clear => exact fun _ _ he => absurd he (List.not_mem_nil _)
  | rebuild => exact rebuildDisplayNetnames s
  | setCurrent p b => exact h.setItem ⟨rfl, rfl, rfl⟩

theorem run (hw : WellKeyed s) (hc : NamesCoded s) (h : CacheClean unescapeString s) {ops : List Op}
    (ha : assertsHoldAlong unescapeString ops s = true) : CacheClean unescapeString (run unescapeString ops s) := by
  induction ops generalizing s with
  | nil => exact h
  | cons op ops ih =>
    rw [assertsHoldAlong, Bool.and_eq_true] at ha
    exact ih (hw.step _ op) (NamesCoded.step unescapeString hw hc ha.1) (h.step hw hc op) ha.2

end CacheClean

theorem create_cacheClean : CacheClean unescapeString create := fun hf => absurd hf (by decide)

/-- Along every run whose `AppendNet` assertions all hold, the display-name cache
is never served stale: the defect of `RemoveNet` needs the indices to disagree. -/
theorem displayCacheSound_of_asserts {ops : List Op}
    (ha : assertsHoldAlong unescapeString ops create = true) :
    DisplayCacheSound unescapeString (run unescapeString ops create) :=
  (displayCacheSound_iff unescapeString).2
    (CacheClean.run create_wellKeyed create_namesCoded (create_cacheClean unescapeString) ha)

end Cache

def gndVccRemoveRun : List Op := gndVccRun++[.rebuild, .remove 2, .rebuild, .removeUnused true]

theorem displayCacheSound_gndVcc :
    assertsHoldAlong id gndVccRemoveRun create = true ∧
      DisplayCacheSound id (run id gndVccRemoveRun create) :=
  ⟨by decide, displayCacheSound_of_asserts id (by decide)⟩

theorem length_filter_eq_one_iff {l : List Ptr} (hl : l.Nodup) {p : Ptr} (hp : p ∈ l)
    (P : Ptr → Bool) (hP : P p = true) : (l.filter P).length = 1 ↔ ∀ q ∈ l, q ≠ p → P q = false := by
  constructor
  · intro hlen q hq hqp
    obtain ⟨a, ha⟩ := List.length_eq_one.mp hlen
    have hpa : p = a := List.mem_singleton.mp (ha ▸ List.mem_filter.mpr ⟨hp, hP⟩)
    by_contra hPq
    exact hqp ((List.mem_singleton.mp (ha ▸ List.mem_filter.mpr ⟨hq, by simpa using hPq⟩)).trans hpa.symm)
  · intro h
    have hsub : l.filter P ⊆ [p] := fun q hq => by
      obtain ⟨hq, hPq⟩ := List.mem_filter.mp hq
      by_contra hne
      rw [h q hq (by simpa using hne)] at hPq
      exact Bool.false_ne_true hPq
    have h₁ := (List.subperm_of_subset (hl.filter P) hsub).length_le
    have h₂ := List.length_pos_of_mem (List.mem_filter.mpr ⟨hp, hP⟩)
    simp only [List.length_cons, List.length_nil] at h₁
    omega

/-- After `RebuildDisplayNetnames` a registered net whose short name no other
registered net shares is shown by its short name, any other registered net by its
full name, and the cache is clean. The registered nets are those of `m_netNames`,
each registered once. -/
theorem rebuildDisplayNetnames_display (unescapeString : String → String) {s : NetinfoList}
    (hs : (s.netNames.entries.map Prod.snd).Nodup) :
    (∀ p ∈ s.netNames.entries.map Prod.snd,
      (∀ q ∈ s.netNames.entries.map Prod.snd, q ≠ p → (s.items q).shortNetname ≠ (s.items p).shortNetname) →
        ((s.rebuildDisplayNetnames unescapeString).items p).displayNetname =
          unescapeString (s.items p).shortNetname) ∧
    (∀ p ∈ s.netNames.entries.map Prod.snd,
      (∃ q ∈ s.netNames.entries.map Prod.snd, q ≠ p ∧ (s.items q).shortNetname = (s.items p).shortNetname) →
        ((s.rebuildDisplayNetnames unescapeString).items p).displayNetname =
          unescapeString (s.items p).netname) ∧
    (s.rebuildDisplayNetnames unescapeString).displayNetnamesDirty = false := by
  have hdisp : ∀ p ∈ s.netNames.entries.map Prod.snd,
      ((s.rebuildDisplayNetnames unescapeString).items p).displayNetname =
        if ((s.netNames.entries.map Prod.snd).filter
            fun q => (s.items q).shortNetname = (s.items p).shortNetname).length = 1
        then unescapeString (s.items p).shortNetname else unescapeString (s.items p).netname := by
    intro p hp
    rw [rebuildDisplayNetnames_items_eq, if_pos hp]
    simp only [displayNetname, find_countShortNames, List.countP_eq_length_filter]
    split_ifs <;> first | rfl | (exfalso; omega)
  have hiff := fun p (hp : p ∈ s.netNames.entries.map Prod.snd) =>
    length_filter_eq_one_iff hs hp (fun q => (s.items q).shortNetname = (s.items p).shortNetname)
      (decide_eq_true rfl)
  refine ⟨fun p hp h => ?_, fun p hp ⟨q, hq, hqp, hsame⟩ => ?_, rfl⟩
  · rw [hdisp p hp, if_pos ((hiff p hp).mpr fun q hq hqp => decide_eq_false (h q hq hqp))]
  · rw [hdisp p hp, if_neg fun h => absurd ((hiff p hp).mp h q hq hqp) (by simpa using hsame)]

/-- Every state a run reaches registers each net once in `m_netNames`. -/
theorem nets_nodup_of_run (unescapeString : String → String) (ops : List Op) :
    ((run unescapeString ops create).netNames.entries.map Prod.snd).Nodup :=
  StdMap.nodup_values_of_keyed (fun q => ((run unescapeString ops create).items q).netname)
    (create_wellKeyed.run _ ops).names_keyed

def shortNameClashRun : List Op :=
  [.appendNew ⟨-1, "/A/N", "N", "", true⟩, .appendNew ⟨-1, "/B/N", "N", "", true⟩,
    .appendNew ⟨-1, "GND", "GND", "", true⟩]

theorem rebuildDisplayNetnames_display_clash :
    ((run id shortNameClashRun create).netNames.entries.map Prod.snd).Nodup ∧
      (((run id shortNameClashRun create).rebuildDisplayNetnames id).items 1).displayNetname =
        id ((run id shortNameClashRun create).items 1).netname ∧
      (((run id shortNameClashRun create).rebuildDisplayNetnames id).items 3).displayNetname =
        id ((run id shortNameClashRun create).items 3).shortNetname :=
  ⟨by decide,
    (rebuildDisplayNetnames_display id (by decide)).2.1 1 (by decide) ⟨2, by decide, by decide, by decide⟩,
    (rebuildDisplayNetnames_display id (by decide)).1 3 (by decide) (by decide)⟩

end Kicad.NetinfoList
