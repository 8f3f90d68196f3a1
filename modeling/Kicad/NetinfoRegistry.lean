import Kicad.NetinfoRemoval

/-!
# The net list as a registry of nets

While the two indices agree they are the graphs of the registered nets' codes
and names, so `GetNetItem` answers from the set of registered nets and no two of
them share a code or a name. `AppendNet`, when its assertions hold, keeps that
representation: it registers its net when the name is new and otherwise points
the net at the one registered under the name, and either way a lookup of the
name and one of the net's new code find the same net.
-/

set_option autoImplicit false

namespace Kicad.NetinfoList

namespace IndicesAgree
variable {s : NetinfoList}

theorem getNetItemByCode_eq_some (ha : IndicesAgree s) {aNetCode : ℤ} {p : Ptr} :
    s.getNetItemByCode aNetCode = some p ↔
      (∃ k, (k, p) ∈ s.netCodes.entries) ∧ (s.items p).netCode = aNetCode := by
  rw [getNetItemByCode, StdMap.find_eq_some]
  constructor
  · exact fun h => ⟨⟨_, h⟩, (ha.codes_keyed _ h).symm⟩
  · rintro ⟨⟨k, hk⟩, rfl⟩
    have hkey : k = (s.items p).netCode := ha.codes_keyed _ hk
    rwa [← hkey]

theorem getNetItemByName_eq_some (ha : IndicesAgree s) {aNetName : String} {p : Ptr} :
    s.getNetItemByName aNetName = some p ↔
      (∃ k, (k, p) ∈ s.netCodes.entries) ∧ (s.items p).netname = aNetName := by
  rw [getNetItemByName, StdMap.find_eq_some]
  constructor
  · exact fun h => ⟨StdMap.holds_iff.mp (ha.2 _ h).2, (ha.names_keyed _ h).symm⟩
  · rintro ⟨⟨k, hk⟩, rfl⟩
    obtain ⟨n, hn⟩ := ha.codes_named _ hk
    have hkey : n = (s.items p).netname := ha.names_keyed _ hn
    rwa [← hkey]

theorem frame {t : NetinfoList} (ha : IndicesAgree s) (hc : t.netCodes = s.netCodes)
    (hn : t.netNames = s.netNames) (hi : ∀ e ∈ s.netNames.entries,
      (t.items e.2).netCode = (s.items e.2).netCode ∧ (t.items e.2).netname = (s.items e.2).netname) :
    IndicesAgree t := by
  rw [IndicesAgree, hc, hn]
  refine ⟨fun e he => ?_, fun e he => ⟨(ha.names_keyed e he).trans (hi e he).2.symm, (ha.2 e he).2⟩⟩
  obtain ⟨n, hm⟩ := ha.codes_named e he
  exact ⟨(ha.codes_keyed e he).trans (hi _ hm).1.symm, (ha.1 e he).2⟩

theorem appendNet_merge (ha : IndicesAgree s) {p q : Ptr}
    (hq : s.getNetItemByName (s.items p).netname = some q) :
    IndicesAgree (s.appendNet p) ∧ (s.appendNet p).netCodes = s.netCodes ∧
      (s.appendNet p).getNetItemByName (s.items p).netname = some q ∧
      (s.appendNet p).getNetItemByCode ((s.appendNet p).items p).netCode = some q := by
  have hkeep := merge_keeps_of_keyed ha.names_keyed hq
  rw [appendNet_of_merge hq]
  have hcode : ((s.setItem p { s.items p with netCode := (s.items q).netCode }).items p).netCode =
      (s.items q).netCode := by simp [setItem]
  refine ⟨ha.frame rfl rfl hkeep, rfl, hq, ?_⟩
  rw [hcode]
  exact ha.getNetItemByCode_eq_some.mpr ⟨(ha.getNetItemByName_eq_some.mp hq).1, rfl⟩

theorem appendNet_new (ha : IndicesAgree s) {p : Ptr}
    (hn : s.getNetItemByName (s.items p).netname = none)
    (hc : s.getNetItemByCode (s.assignNetCode p).2 = none) :
    IndicesAgree (s.appendNet p) ∧
      (∀ x, x ∈ (s.appendNet p).netCodes.entries ↔
        x ∈ s.netCodes.entries ∨ x = ((s.assignNetCode p).2, p)) ∧
      (s.appendNet p).getNetItemByName (s.items p).netname = some p ∧
      (s.appendNet p).getNetItemByCode ((s.appendNet p).items p).netCode = some p := by
  have hpc : ∀ e ∈ s.netCodes.entries, e.2 ≠ p := fun e he hep => by
    rw [ha.getNetItemByName_eq_some.mpr ⟨⟨e.1, hep ▸ he⟩, rfl⟩] at hn
    cases hn
  have hpn : ∀ e ∈ s.netNames.entries, e.2 ≠ p := fun e he hep => by
    rw [ha.getNetItemByName_eq_some.mpr ⟨StdMap.holds_iff.mp (hep ▸ (ha.2 e he).2), rfl⟩] at hn
    cases hn
  have hmc : ∀ x, x ∈ (s.netCodes.insert (s.assignNetCode p).2 p).entries ↔
      x ∈ s.netCodes.entries ∨ x = ((s.assignNetCode p).2, p) := fun x =>
    StdMap.mem_insert.trans (or_congr_right (and_iff_left hc))
  have hmn : ∀ x, x ∈ (s.netNames.insert (s.items p).netname p).entries ↔
      x ∈ s.netNames.entries ∨ x = ((s.items p).netname, p) := fun x =>
    StdMap.mem_insert.trans (or_congr_right (and_iff_left hn))
  rw [appendNet_of_new hn]
  refine ⟨⟨fun e he => ?_, fun e he => ?_⟩, hmc, StdMap.find_eq_some.mpr ((hmn _).mpr (.inr rfl)), ?_⟩
  · rcases (hmc e).mp he with he | rfl
    · obtain ⟨n, hm⟩ := ha.codes_named e he
      exact ⟨by simpa [setItem, hpc e he] using ha.codes_keyed e he,
        StdMap.holds_iff.mpr ⟨n, (hmn _).mpr (.inl hm)⟩⟩
    · exact ⟨by simp [setItem], StdMap.holds_iff.mpr ⟨_, (hmn _).mpr (.inr rfl)⟩⟩
  · rcases (hmn e).mp he with he | rfl
    · obtain ⟨k, hk⟩ := StdMap.holds_iff.mp (ha.2 e he).2
      exact ⟨by simpa [setItem, hpn e he] using ha.names_keyed e he,
        StdMap.holds_iff.mpr ⟨k, (hmc _).mpr (.inl hk)⟩⟩
    · exact ⟨by simp [setItem], StdMap.holds_iff.mpr ⟨_, (hmc _).mpr (.inr rfl)⟩⟩
  · simp only [getNetItemByCode, setItem, if_true]
    exact StdMap.find_eq_some.mpr ((hmc _).mpr (.inr rfl))

end IndicesAgree

/-- `AppendNet` on agreeing indices, when its assertions hold: the indices still
agree, the object is registered exactly when its name was new, and looking up its
name and its new code both find the net now carrying the name, the object itself
or the net already registered under the name. -/
theorem appendNet_of_agree {s : NetinfoList} (ha : IndicesAgree s) {p : Ptr}
    (hassert : appendNetAssertsHold p s = true) :
    IndicesAgree (s.appendNet p) ∧
    (∀ q, (∃ k, (k, q) ∈ (s.appendNet p).netCodes.entries) ↔
      (∃ k, (k, q) ∈ s.netCodes.entries) ∨ (q = p ∧ s.getNetItemByName (s.items p).netname = none)) ∧
    (s.appendNet p).getNetItemByName (s.items p).netname =
      some ((s.getNetItemByName (s.items p).netname).getD p) ∧
    (s.appendNet p).getNetItemByCode ((s.appendNet p).items p).netCode =
      some ((s.getNetItemByName (s.items p).netname).getD p) := by
  cases hq : s.getNetItemByName (s.items p).netname with
  | some q =>
    obtain ⟨ha', hc, h₁, h₂⟩ := ha.appendNet_merge hq
    refine ⟨ha', fun r => ?_, h₁, h₂⟩
    rw [hc]
    simp
  | none =>
    simp only [appendNetAssertsHold, hq, Option.isNone_iff_eq_none] at hassert
    obtain ⟨ha', hc, h₁, h₂⟩ := ha.appendNet_new hq hassert
    refine ⟨ha', fun r => ?_, h₁, h₂⟩
    simp only [hc, Prod.mk.injEq, exists_or, exists_eq_left, and_true]

def vddItem : NetinfoItem := ⟨-1, "VDD", "VDD", "", true⟩

theorem appendNet_of_agree_vdd :
    IndicesAgree ((run id gndVccRun create).alloc vddItem).1 ∧
      appendNetAssertsHold 4 ((run id gndVccRun create).alloc vddItem).1 = true ∧
      (((run id gndVccRun create).alloc vddItem).1.appendNet 4).getNetItemByName
          (((run id gndVccRun create).alloc vddItem).1.items 4).netname =
        some ((((run id gndVccRun create).alloc vddItem).1.getNetItemByName
          (((run id gndVccRun create).alloc vddItem).1.items 4).netname).getD 4) :=
  ⟨by decide, by decide, (appendNet_of_agree (by decide) (by decide)).2.2.1⟩

end Kicad.NetinfoList
