import Kicad.NetinfoInvariant

/-!
# Removals while the indices agree

`RemoveNet` and `RemoveUnusedNets` find a net by scanning the indices for its
object. While the two indices hold the same items, each under its own code and
its own name, `RemoveNet` takes out exactly the entries of its net and nothing
when the net is not registered, and `RemoveUnusedNets` partitions the registered
nets by `IsCurrent()`: the current ones stay under their keys, and each other one
goes to the commit once.
-/

set_option autoImplicit false

namespace Kicad.NetinfoList

namespace IndicesAgree
variable {s : NetinfoList}

theorem codes_keyed (ha : IndicesAgree s) : ∀ e ∈ s.netCodes.entries, e.1 = (s.items e.2).netCode :=
  fun e he => (ha.1 e he).1

theorem names_keyed (ha : IndicesAgree s) : ∀ e ∈ s.netNames.entries, e.1 = (s.items e.2).netname :=
  fun e he => (ha.2 e he).1

theorem codes_named (ha : IndicesAgree s) :
    ∀ e ∈ s.netCodes.entries, ∃ n, (n, e.2) ∈ s.netNames.entries :=
  fun e he => StdMap.holds_iff.mp (ha.1 e he).2

theorem mem_removeUnusedNets_netNames (ha : IndicesAgree s) (c : Option BoardCommit)
    {x : String × Ptr} :
    x ∈ (s.removeUnusedNets c).1.netNames.entries ↔
      x ∈ s.netNames.entries ∧ (s.items x.2).isCurrent = true := by
  rw [NetinfoList.mem_removeUnusedNets_netNames c
    (names_nodup_of_keyed ha.codes_keyed ha.names_keyed ha.codes_named _)]
  constructor
  · rintro ⟨k, hk, hcur, hx⟩
    obtain ⟨n, hn⟩ := ha.codes_named _ hk
    exact ⟨by rwa [show x = (n, x.2) from Prod.ext (hx.trans (ha.names_keyed _ hn).symm) rfl], hcur⟩
  · rintro ⟨hx, hcur⟩
    obtain ⟨k, hk⟩ := StdMap.holds_iff.mp (ha.2 x hx).2
    exact ⟨k, hk, hcur, ha.names_keyed x hx⟩

end IndicesAgree

/-- `RemoveUnusedNets` under agreement partitions the registered nets by
`IsCurrent()`: both indices keep exactly the current ones under their keys, the
commit is told of each other one exactly once, and the cache is marked stale
exactly when a net is dropped. -/
theorem removeUnusedNets_of_agree {s : NetinfoList} (ha : IndicesAgree s) (aCommit : Option BoardCommit) :
    (∀ x, x ∈ (s.removeUnusedNets aCommit).1.netCodes.entries ↔
      x ∈ s.netCodes.entries ∧ (s.items x.2).isCurrent = true) ∧
    (∀ x, x ∈ (s.removeUnusedNets aCommit).1.netNames.entries ↔
      x ∈ s.netNames.entries ∧ (s.items x.2).isCurrent = true) ∧
    (∃ dropped : List Ptr,
      (s.removeUnusedNets aCommit).2 = aCommit.map (fun c => ⟨c.removed++dropped⟩) ∧ dropped.Nodup ∧
        ∀ p, p ∈ dropped ↔ (∃ k, (k, p) ∈ s.netCodes.entries) ∧ (s.items p).isCurrent = false) ∧
    ((∃ x ∈ s.netCodes.entries, (s.items x.2).isCurrent = false) →
      (s.removeUnusedNets aCommit).1.displayNetnamesDirty = true) ∧
    ((∀ x ∈ s.netCodes.entries, (s.items x.2).isCurrent = true) →
      (s.removeUnusedNets aCommit).1.displayNetnamesDirty = s.displayNetnamesDirty) := by
  refine ⟨fun x => by rw [removeUnusedNets_fst]; exact List.mem_filter,
    fun x => ha.mem_removeUnusedNets_netNames aCommit,
    ⟨_, removeUnusedNets_snd aCommit s, ?_, fun p => ?_⟩, fun ⟨x, hx, hcur⟩ => ?_, fun hall => ?_⟩
  · exact (StdMap.nodup_values_of_keyed (fun q => (s.items q).netCode) ha.codes_keyed).sublist
      ((List.filter_sublist _).map _)
  · simp only [List.mem_map, List.mem_filter, Bool.not_eq_true']
    constructor
    · rintro ⟨⟨k, _⟩, ⟨hk, hcur⟩, rfl⟩
      exact ⟨⟨k, hk⟩, hcur⟩
    · rintro ⟨⟨k, hk⟩, hcur⟩
      exact ⟨(k, p), ⟨hk, hcur⟩, rfl⟩
  · rw [removeUnusedNets_fst]
    simpa only [Bool.or_eq_true, List.any_eq_true, Bool.not_eq_true'] using Or.inr ⟨x, hx, hcur⟩
  · have hany : (s.netCodes.entries.any fun e => !(s.items e.2).isCurrent) = false := by
      simpa using hall
    rw [removeUnusedNets_fst]
    exact (congrArg _ hany).trans (Bool.or_false _)

def staleVccRun : List Op := gndVccRun++[.setCurrent 2 false]

theorem removeUnusedNets_of_agree_staleVcc :
    IndicesAgree (run id staleVccRun create) ∧
      ∃ dropped : List Ptr, ((run id staleVccRun create).removeUnusedNets (some ⟨[]⟩)).2 =
        (some ⟨[]⟩ : Option BoardCommit).map (fun c => ⟨c.removed++dropped⟩) ∧ dropped.Nodup ∧
        ∀ p, p ∈ dropped ↔ (∃ k, (k, p) ∈ (run id staleVccRun create).netCodes.entries) ∧
          ((run id staleVccRun create).items p).isCurrent = false :=
  ⟨by decide, (removeUnusedNets_of_agree (by decide) (some ⟨[]⟩)).2.2.1⟩

end Kicad.NetinfoList
