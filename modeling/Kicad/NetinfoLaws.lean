import Kicad.NetinfoRemoval

/-!
# How the calls on the net list compose

On every state a run reaches, each call but the allocation of a new net is
idempotent: `AppendNet` of an object already appended, a second `RemoveNet`, a
second `RemoveUnusedNets` and a second `RebuildDisplayNetnames` change nothing.
Appending an object whose name is free and removing it again gives both indices
back; removing a registered net and appending it again does too, when the codes
from 1 up to its own are in use, since `RemoveNet` lowers the hint so that the
freed code is the next one given.
-/

set_option autoImplicit false

namespace Kicad.NetinfoList

theorem appendNet_appendNet (s : NetinfoList) (p : Ptr) : (s.appendNet p).appendNet p = s.appendNet p := by
  cases hq : s.getNetItemByName (s.items p).netname with
  | some q =>
    rw [appendNet_of_merge hq]
    have hq' : (s.setItem p { s.items p with netCode := (s.items q).netCode }).getNetItemByName
        ((s.setItem p { s.items p with netCode := (s.items q).netCode }).items p).netname = some q := by
      simpa [setItem] using hq
    rw [appendNet_of_merge hq', setItem_setItem]
    by_cases hqp : q = p <;> simp [setItem, hqp]
  | none =>
    have hp : (s.appendNet p).getNetItemByName ((s.appendNet p).items p).netname = some p := by
      rw [appendNet_of_new hq]
      exact StdMap.find_eq_some.mpr (StdMap.mem_insert.mpr (.inr ⟨by simp [setItem], hq⟩))
    rw [appendNet_of_merge hp, setItem_self]

theorem with_indices_self {t : NetinfoList} {codes : StdMap ℤ Ptr} {names : StdMap String Ptr} {dirty : Bool}
    (hc : codes = t.netCodes) (hn : names = t.netNames) (hd : dirty = t.displayNetnamesDirty) :
    { t with netCodes := codes, netNames := names, displayNetnamesDirty := dirty } = t := by
  subst hc hn hd
  rfl

theorem removeUnusedNets_removeUnusedNets (s : NetinfoList) (c c' : Option BoardCommit) :
    (s.removeUnusedNets c).1.removeUnusedNets c' = ((s.removeUnusedNets c).1, c') := by
  have hcur : ∀ e ∈ (s.removeUnusedNets c).1.netCodes.entries,
      ((s.removeUnusedNets c).1.items e.2).isCurrent = true := by
    rw [removeUnusedNets_fst]
    exact fun e he => (List.mem_filter.mp he).2
  have hkeep : ((s.removeUnusedNets c).1.netCodes.entries.filter
      fun e => ((s.removeUnusedNets c).1.items e.2).isCurrent) = (s.removeUnusedNets c).1.netCodes.entries :=
    List.filter_eq_self.mpr hcur
  have hany : ((s.removeUnusedNets c).1.netCodes.entries.any
      fun e => !((s.removeUnusedNets c).1.items e.2).isCurrent) = false := by
    simpa using hcur
  refine Prod.ext ?_ ?_
  · rw [removeUnusedNets_fst c' (s.removeUnusedNets c).1]
    refine with_indices_self (StdMap.ext hkeep) ?_ (by rw [hany, Bool.or_false])
    rw [hkeep, removeUnusedNets_fst]
  · rw [removeUnusedNets_snd, List.filter_eq_nil_iff.mpr (by simpa using hcur)]
    cases c' <;> simp

theorem rebuildDisplayNetnames_rebuildDisplayNetnames (unescapeString : String → String) (s : NetinfoList) :
    (s.rebuildDisplayNetnames unescapeString).rebuildDisplayNetnames unescapeString =
      s.rebuildDisplayNetnames unescapeString := by
  have hcount : (s.rebuildDisplayNetnames unescapeString).countShortNames = s.countShortNames :=
    countShortNames_congr rfl fun e _ => by
      obtain ⟨d, hd⟩ := rebuildDisplayNetnames_items unescapeString s e.2
      rw [hd]
  have hitems : ((s.rebuildDisplayNetnames unescapeString).rebuildDisplayNetnames unescapeString).items =
      (s.rebuildDisplayNetnames unescapeString).items := by
    funext q
    rw [rebuildDisplayNetnames_items_eq, hcount]
    split_ifs with hq
    · have hq' : q ∈ s.netNames.entries.map Prod.snd := hq
      rw [rebuildDisplayNetnames_items_eq unescapeString s q, if_pos hq']
      rfl
    · rfl
  calc (s.rebuildDisplayNetnames unescapeString).rebuildDisplayNetnames unescapeString
      = { s.rebuildDisplayNetnames unescapeString with
          items := ((s.rebuildDisplayNetnames unescapeString).rebuildDisplayNetnames unescapeString).items
          displayNetnamesDirty := false } := rfl
    _ = s.rebuildDisplayNetnames unescapeString := by rw [hitems]; rfl

theorem WellKeyed.removeNet_removeNet {s : NetinfoList} (h : WellKeyed s) (p : Ptr) :
    (s.removeNet p).removeNet p = s.removeNet p :=
  removeNet_of_not_holds
    (by rw [removeNet_netCodes]
        exact StdMap.holds_eraseValue (StdMap.unique_of_keyed (fun q => (s.items q).netCode) h.codes_keyed p))
    (by rw [removeNet_netNames]
        exact StdMap.holds_eraseValue (StdMap.unique_of_keyed (fun q => (s.items q).netname) h.names_keyed p))

/-- On every state a run reaches, each call but the allocation of a new net is
idempotent: the same call made again at once changes nothing. -/
theorem step_step_of_run (unescapeString : String → String) (ops : List Op) {op : Op}
    (hop : ∀ it, op ≠ .appendNew it) :
    step unescapeString op (step unescapeString op (run unescapeString ops create)) =
      step unescapeString op (run unescapeString ops create) := by
  have h := create_wellKeyed.run unescapeString ops
  generalize run unescapeString ops create = s at h ⊢
  cases op with
  | appendNew it => exact absurd rfl (hop it)
  | append p =>
    by_cases hp : p < s.next
    · simp only [step, if_pos hp, appendNet_next, appendNet_appendNet]
    · simp only [step, if_neg hp]
  | remove p => exact h.removeNet_removeNet p
  | removeUnused c => simp only [step, removeUnusedNets_removeUnusedNets]
  | clear => rfl
  | rebuild => exact rebuildDisplayNetnames_rebuildDisplayNetnames unescapeString s
  | setCurrent p b =>
    simp only [step, setItem_setItem]
    simp [setItem]

theorem step_step_of_run_staleVcc :
    (∀ it, Op.removeUnused true ≠ .appendNew it) ∧
      step id (.removeUnused true) (step id (.removeUnused true) (run id staleVccRun create)) =
        step id (.removeUnused true) (run id staleVccRun create) :=
  ⟨fun _ h => Op.noConfusion h, step_step_of_run id staleVccRun fun _ h => Op.noConfusion h⟩

/-- On every state a run reaches, appending an object whose name is not
registered and removing it again gives both indices back, whatever code the
append gave it, even one already in use. -/
theorem removeNet_appendNet_of_run (unescapeString : String → String) (ops : List Op) {p : Ptr}
    (hn : (run unescapeString ops create).getNetItemByName
      ((run unescapeString ops create).items p).netname = none) :
    (((run unescapeString ops create).appendNet p).removeNet p).netCodes =
        (run unescapeString ops create).netCodes ∧
      (((run unescapeString ops create).appendNet p).removeNet p).netNames =
        (run unescapeString ops create).netNames := by
  have h := create_wellKeyed.run unescapeString ops
  generalize run unescapeString ops create = s at h hn ⊢
  have hnn : s.netNames.holds p = false := Bool.eq_false_iff.mpr fun hh =>
    let ⟨n, hm⟩ := StdMap.holds_iff.mp hh
    h.not_named hn n hm
  have hnc : s.netCodes.holds p = false := Bool.eq_false_iff.mpr fun hh =>
    let ⟨k, hk⟩ := StdMap.holds_iff.mp hh
    h.not_coded hn k hk
  rw [appendNet_of_new hn, removeNet_netCodes, removeNet_netNames]
  exact ⟨StdMap.eraseValue_insert hnc, StdMap.eraseValue_insert hnn⟩

namespace IndicesAgree
variable {s : NetinfoList} {p : Ptr}

theorem getNetItemByName_removeNet (ha : IndicesAgree s) (hn : ((s.items p).netname, p) ∈ s.netNames.entries) :
    (s.removeNet p).getNetItemByName (s.items p).netname = none := by
  rw [getNetItemByName, removeNet_netNames, StdMap.find_eq_none]
  have hnu := StdMap.unique_of_keyed (fun q => (s.items q).netname) ha.names_keyed p
  exact fun v hv => let ⟨hv, hvp⟩ := (StdMap.mem_eraseValue hnu).mp hv; hvp (StdMap.key_unique hv hn)

theorem getFreeNetCode_removeNet (ha : IndicesAgree s) (hk : ((s.items p).netCode, p) ∈ s.netCodes.entries)
    (hc : 1 ≤ (s.items p).netCode) (hbelow : ∀ k, 1 ≤ k → k < (s.items p).netCode → k ∈ s.netCodes.keys) :
    (s.removeNet p).getFreeNetCode = (s.items p).netCode := by
  have hcu := StdMap.unique_of_keyed (fun q => (s.items q).netCode) ha.codes_keyed p
  obtain ⟨hlo, hnot, hmin⟩ := getFreeNetCode_spec (s.removeNet p)
  have hhint : (s.removeNet p).newNetCode ≤ (s.items p).netCode-1 := by
    rw [removeNet, if_pos (StdMap.holds_iff.mpr ⟨_, hk⟩)]
    exact min_le_right _ _
  rw [removeNet_netCodes] at hnot hmin
  have hgone : (s.items p).netCode ∉ (s.netCodes.eraseValue p).keys := fun h =>
    let ⟨v, hv⟩ := StdMap.mem_keys.mp h
    let ⟨hv, hvp⟩ := (StdMap.mem_eraseValue hcu).mp hv
    hvp (StdMap.key_unique hv hk)
  have hstay : ∀ c, c ≠ (s.items p).netCode → c ∈ s.netCodes.keys → c ∈ (s.netCodes.eraseValue p).keys :=
    fun c hc h => let ⟨v, hv⟩ := StdMap.mem_keys.mp h
      StdMap.mem_keys.mpr
        ⟨v, (StdMap.mem_eraseValue hcu).mpr ⟨hv, fun (hvp : v = p) => hc (hvp ▸ ha.codes_keyed _ hv)⟩⟩
  refine le_antisymm (not_lt.mp fun h => hgone (hmin _ (by omega) h)) (not_lt.mp fun h => ?_)
  exact hnot (hstay _ (by omega) (hbelow _ (by omega) h))

end IndicesAgree

/-- Removing a registered net and appending the same object again gives it its
code back when every code from 1 up to it is in use: `RemoveNet` lowers the hint
below the freed code, so `getFreeNetCode` reaches it first. Both indices and all
objects are as before. -/
theorem appendNet_removeNet_of_agree {s : NetinfoList} (ha : IndicesAgree s) {p : Ptr}
    (hp : ∃ k, (k, p) ∈ s.netCodes.entries) (hc : 1 ≤ (s.items p).netCode)
    (hbelow : ∀ k, 1 ≤ k → k < (s.items p).netCode → k ∈ s.netCodes.keys) :
    ((s.removeNet p).appendNet p).netCodes = s.netCodes ∧
      ((s.removeNet p).appendNet p).netNames = s.netNames ∧
      ((s.removeNet p).appendNet p).items = s.items := by
  obtain ⟨k, hk⟩ := hp
  obtain rfl : k = (s.items p).netCode := ha.codes_keyed _ hk
  obtain ⟨n, hn⟩ := ha.codes_named _ hk
  obtain rfl : n = (s.items p).netname := ha.names_keyed _ hn
  have hitems := removeNet_items p s
  have hfree : (s.removeNet p).getNetItemByName ((s.removeNet p).items p).netname = none := by
    rw [hitems]
    exact ha.getNetItemByName_removeNet hn
  have hcode : ((s.removeNet p).assignNetCode p).2 = (s.items p).netCode := by
    rcases assignNetCode_cases (s.removeNet p) p with ⟨he, -⟩ | he <;> rw [he]
    · rw [hitems]
    · exact ha.getFreeNetCode_removeNet hk hc hbelow
  rw [appendNet_of_new hfree, hcode, hitems, removeNet_netCodes, removeNet_netNames]
  refine ⟨StdMap.insert_eraseValue (StdMap.unique_of_keyed (fun q => (s.items q).netCode) ha.codes_keyed p) hk,
    StdMap.insert_eraseValue (StdMap.unique_of_keyed (fun q => (s.items q).netname) ha.names_keyed p) hn, ?_⟩
  show ((s.removeNet p).setItem p (s.items p)).items = s.items
  rw [← hitems, setItem_self]

def vddAddedRun : List Op := gndVccRun++[.appendNew ⟨-1, "VDD", "VDD", "", true⟩]

theorem appendNet_removeNet_of_agree_gndVcc :
    IndicesAgree (run id gndVccRun create) ∧ ((run id gndVccRun create).items 1).netCode = 1 ∧
      (((run id gndVccRun create).removeNet 1).appendNet 1).netCodes = (run id gndVccRun create).netCodes ∧
    IndicesAgree (run id vddAddedRun create) ∧ ((run id vddAddedRun create).items 2).netCode = 2 ∧
      (((run id vddAddedRun create).removeNet 2).appendNet 2).netCodes = (run id vddAddedRun create).netCodes :=
  have hgnd : ((run id gndVccRun create).items 1).netCode = 1 := by decide
  have hvcc : ((run id vddAddedRun create).items 2).netCode = 2 := by decide
  ⟨by decide, hgnd, (appendNet_removeNet_of_agree (by decide) ⟨1, by decide⟩ hgnd.ge
      fun _ _ h => absurd h (by omega)).1,
    by decide, hvcc, (appendNet_removeNet_of_agree (by decide) ⟨2, by decide⟩ (by omega) fun k h₁ h₂ => by
      obtain rfl : k = 1 := by omega
      decide).1⟩

def gndRemovedRun : List Op := gndVccRun++[.remove 1]

theorem removeNet_appendNet_of_run_gndRemoved :
    (run id gndRemovedRun create).getNetItemByName ((run id gndRemovedRun create).items 3).netname = none ∧
      (((run id gndRemovedRun create).appendNet 3).removeNet 3).netCodes = (run id gndRemovedRun create).netCodes :=
  ⟨by decide, (removeNet_appendNet_of_run id gndRemovedRun (by decide)).1⟩

end Kicad.NetinfoList
