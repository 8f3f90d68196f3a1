import Kicad.NetinfoInvariant

/-!
# Net codes: free codes, their overflow, and consecutive numbering

`getFreeNetCode` scans up from `max(m_newNetCode, 0) + 1` for a code that
`m_netCodes` does not hold. Without `RemoveUnusedNets` every code up to the hint
is such a key, so the scan finds the least positive code missing from
`m_netCodes`; a net that `AppendNet` left in `m_netNames` only is not seen. The
scan on unbounded integers and the one on the C++ `int` agree until it passes
`INT_MAX`, and appending and pruning a stale net raises the hint without growing
the list, so enough such cycles make the `int` scan hand out `INT_MIN`. A run of
appends numbers the new names `1, 2, ...` in order of appearance.
-/

set_option autoImplicit false

namespace Kicad.NetinfoList

section Keeps
variable (unescapeString : String → String)

def removesNet (u : Ptr) (s : NetinfoList) : Op → Bool
  | .remove p => p = u
  | .removeUnused _ => !(s.items u).isCurrent
  | .clear => true
  | _ => false

def keepsNet (u : Ptr) : List Op → NetinfoList → Bool
  | [], _ => true
  | op::ops, s => !removesNet u s op && keepsNet u ops (step unescapeString op s)

end Keeps

theorem keepsNet_append (unescapeString : String → String) (u : Ptr) (ops rest : List Op) (s : NetinfoList) :
    keepsNet unescapeString u (ops++rest) s =
      (keepsNet unescapeString u ops s && keepsNet unescapeString u rest (run unescapeString ops s)) := by
  induction ops generalizing s with
  | nil => rfl
  | cons op ops ih =>
    rw [List.cons_append]
    simp only [keepsNet, run, ih, Bool.and_assoc]

def staleItem : NetinfoItem := ⟨-1, "X", "X", "", false⟩

def staleCycles : ℕ → List Op
  | 0 => []
  | k+1 => staleCycles k++[.appendNew staleItem, .removeUnused false]

theorem staleCycle {s : NetinfoList} {k : ℤ} (hk : 0 ≤ k) (hc : s.netCodes = create.netCodes)
    (hn : s.netNames = create.netNames) (hh : s.newNetCode = k) (hu : s.items 0 = unconnectedItem)
    (hp : 0 < s.next) :
    s.getFreeNetCode = k+1 ∧
      keepsNet id 0 [.appendNew staleItem, .removeUnused false] s = true ∧
      (run id [.appendNew staleItem, .removeUnused false] s).netCodes = create.netCodes ∧
      (run id [.appendNew staleItem, .removeUnused false] s).netNames = create.netNames ∧
      (run id [.appendNew staleItem, .removeUnused false] s).newNetCode = k+1 ∧
      (run id [.appendNew staleItem, .removeUnused false] s).items 0 = unconnectedItem ∧
      0 < (run id [.appendNew staleItem, .removeUnused false] s).next := by
  have hfree : s.getFreeNetCode = k+1 := by
    have hkeys : s.netCodes.keys = [0] := by rw [hc]; decide
    have hcount : s.netCodes.count (k+1) = 0 :=
      StdMap.count_eq_zero.mpr (by rw [hkeys, List.mem_singleton]; omega)
    rw [getFreeNetCode, hh, max_eq_left hk, nextFreeNetCode, if_neg (not_not.mpr hcount)]
  have h0 : (0 : Ptr) ≠ s.next := ne_of_lt hp
  have hname : (s.alloc staleItem).1.getNetItemByName ((s.alloc staleItem).1.items s.next).netname = none := by
    have : create.netNames.find staleItem.netname = none := by decide
    simpa [getNetItemByName, alloc, setItem, hn] using this
  have hassign : (s.alloc staleItem).1.assignNetCode s.next = (k+1, k+1) := by
    rw [assignNetCode, if_pos (.inr (by simp [alloc, setItem, staleItem]))]
    exact congrArg₂ Prod.mk hfree hfree
  have hb := appendNet_of_new hname
  rw [hassign] at hb
  have hb0 : ((s.alloc staleItem).1.appendNet s.next).items 0 = unconnectedItem := by
    rw [hb]; simp [setItem, alloc, h0, hu]
  have hbp : (((s.alloc staleItem).1.appendNet s.next).items s.next).isCurrent = false := by
    rw [hb]; simp [setItem, alloc, staleItem]
  have hbc : ((s.alloc staleItem).1.appendNet s.next).netCodes.entries = [(0, 0), (k+1, s.next)] := by
    rw [hb]
    show (s.netCodes.insert (k+1) s.next).entries = _
    rw [hc]
    exact StdMap.insertAux_of_gt (by simp [show create.netCodes.entries = [(0, 0)] by decide]; omega)
  have hrun : run id [.appendNew staleItem, .removeUnused false] s =
      (((s.alloc staleItem).1.appendNet s.next).removeUnusedNets none).1 := rfl
  have hfilter : ((s.alloc staleItem).1.appendNet s.next).netCodes.entries.filter
      (fun e => (((s.alloc staleItem).1.appendNet s.next).items e.2).isCurrent) = [(0, 0)] := by
    rw [hbc]
    simp [hb0, hbp, unconnectedItem]
  refine ⟨hfree, ?_, ?_, ?_, ?_, ?_, ?_⟩
  · show (!false && (!!(((s.alloc staleItem).1.appendNet s.next).items 0).isCurrent && true)) = true
    rw [hb0]
    rfl
  · rw [hrun, removeUnusedNets_fst]
    exact StdMap.ext (hfilter.trans (by decide))
  · rw [hrun, removeUnusedNets_fst]
    simp only [hfilter, List.map_cons, List.map_nil, hb0, List.foldl_cons, List.foldl_nil]
    exact StdMap.ext (by decide)
  · rw [hrun, removeUnusedNets_fst, hb]
  · rw [hrun, removeUnusedNets_fst]
    exact hb0
  · rw [hrun, removeUnusedNets_fst, hb]
    exact Nat.succ_pos _

theorem run_staleCycles (k : ℕ) :
    keepsNet id 0 (staleCycles k) create = true ∧
      (run id (staleCycles k) create).netCodes = create.netCodes ∧
      (run id (staleCycles k) create).netNames = create.netNames ∧
      (run id (staleCycles k) create).newNetCode = k ∧
      (run id (staleCycles k) create).items 0 = unconnectedItem ∧
      0 < (run id (staleCycles k) create).next := by
  induction k with
  | zero => exact ⟨rfl, rfl, rfl, by decide, by decide, by decide⟩
  | succ k ih =>
    obtain ⟨hk, hc, hn, hh, hu, hp⟩ := ih
    obtain ⟨-, hk', hc', hn', hh', hu', hp'⟩ := staleCycle (Int.natCast_nonneg k) hc hn hh hu hp
    rw [staleCycles, keepsNet_append, run_append, hk, hk']
    exact ⟨rfl, hc', hn', by rw [hh']; push_cast; rfl, hu', hp'⟩

/-- Each cycle of appending a net that is not current and pruning it raises the
hint by one and leaves the list as the constructor made it. After `INT_MAX`
cycles, every scan so far having handed out `k + 1` as the C++ loop does, the
hint is `INT_MAX`; the next `AppendNet` of a new name with code -1 calls
`getFreeNetCode`, whose increment wraps past the clamp to `INT_MIN`, a free
code, so the net is registered under `INT_MIN`. -/
theorem staleCycles_overflow :
    keepsNet id 0 (staleCycles 2147483647) create = true ∧
      (∀ k < 2147483647, (run id (staleCycles k) create).getFreeNetCode = k+1 ∧
        (run id (staleCycles k) create).getFreeNetCodeInt = k+1) ∧
      (run id (staleCycles 2147483647) create).netCodes = create.netCodes ∧
      (run id (staleCycles 2147483647) create).newNetCode = INT_MAX ∧
      (run id (staleCycles 2147483647) create).getFreeNetCodeInt = INT_MIN ∧
      (run id (staleCycles 2147483647) create).getNetItemByName staleItem.netname = none ∧
      (run id (staleCycles 2147483647) create).getNetItemByCode INT_MIN = none := by
  obtain ⟨hk, hc, hn, hh, -, -⟩ := run_staleCycles 2147483647
  refine ⟨hk, fun k hk => ?_, hc, hh, ?_, ?_, ?_⟩
  · obtain ⟨-, hc, hn, hh, hu, hp⟩ := run_staleCycles k
    have hfree := (staleCycle (Int.natCast_nonneg k) hc hn hh hu hp).1
    exact ⟨hfree, (getFreeNetCodeInt_eq _ (by rw [hfree, INT_MAX]; omega)).trans hfree⟩
  · rw [getFreeNetCodeInt, hc, hh]
    decide
  · rw [getNetItemByName, hn]
    decide
  · rw [getNetItemByCode, hc]
    decide

/-- Every code from 1 up to the hint `m_newNetCode` is a key of `m_netCodes`. -/
def HintBelow (s : NetinfoList) : Prop :=
  ∀ c : ℤ, 1 ≤ c → c ≤ s.newNetCode → c ∈ s.netCodes.keys

def FreeCodeLeast (s : NetinfoList) : Prop :=
  1 ≤ s.getFreeNetCode ∧ s.getFreeNetCode ∉ s.netCodes.keys ∧
    (∀ e ∈ s.netCodes.entries, (s.items e.2).netCode ≠ s.getFreeNetCode) ∧
    ∀ c, 1 ≤ c → c < s.getFreeNetCode → c ∈ s.netCodes.keys

def Op.isRemoveUnused : Op → Bool
  | .removeUnused _ => true
  | _ => false

namespace HintBelow
variable {s : NetinfoList}

theorem freeCodeLeast (h : WellKeyed s) (hb : HintBelow s) : FreeCodeLeast s := by
  obtain ⟨hlt, hfree, hbelow⟩ := getFreeNetCode_spec s
  refine ⟨by omega, hfree, fun e he hc => hfree (StdMap.mem_keys.mpr ⟨e.2, ?_⟩), fun c h₁ h₂ => ?_⟩
  · rw [← hc, ← h.codes_keyed e he]
    exact he
  · by_cases hc : c ≤ s.newNetCode
    · exact hb c h₁ hc
    · exact hbelow c (by omega) h₂

theorem appendNet (hb : HintBelow s) (p : Ptr) : HintBelow (s.appendNet p) := by
  cases hq : s.getNetItemByName (s.items p).netname with
  | some q => rw [appendNet_of_merge hq]; exact hb
  | none =>
    rw [appendNet_of_new hq]
    intro c h₁ h₂
    dsimp only at h₂ ⊢
    rcases assignNetCode_cases s p with ⟨he, -⟩ | he <;> rw [he] at h₂ ⊢
    · exact StdMap.keys_subset_insert (hb c h₁ h₂)
    · obtain ⟨hlt, hfree, hbelow⟩ := getFreeNetCode_spec s
      rcases lt_or_eq_of_le h₂ with h₂ | rfl
      · by_cases hc : c ≤ s.newNetCode
        · exact StdMap.keys_subset_insert (hb c h₁ hc)
        · exact StdMap.keys_subset_insert (hbelow c (by omega) h₂)
      · exact StdMap.mem_keys.mpr ⟨p, StdMap.mem_insert.mpr
          (.inr ⟨rfl, StdMap.find_eq_none.mpr fun v hv => hfree (StdMap.mem_keys.mpr ⟨v, hv⟩)⟩)⟩

theorem removeNet (h : WellKeyed s) (hb : HintBelow s) (p : Ptr) : HintBelow (s.removeNet p) := by
  unfold NetinfoList.removeNet
  split
  · intro c h₁ h₂
    dsimp only at h₂ ⊢
    obtain ⟨v, hv⟩ := StdMap.mem_keys.mp (hb c h₁ (le_trans h₂ (min_le_left _ _)))
    have hcu := StdMap.unique_of_keyed (fun q => (s.items q).netCode) h.codes_keyed p
    refine StdMap.mem_keys.mpr ⟨v, (StdMap.mem_eraseValue hcu).mpr ⟨hv, fun hvp => ?_⟩⟩
    have hc : c = (s.items p).netCode := (h.codes_keyed _ hv).trans (congrArg _ (congrArg _ hvp))
    have := le_trans h₂ (min_le_right _ _)
    omega
  · next hh =>
    rw [Bool.not_eq_true] at hh
    intro c h₁ h₂
    dsimp only at h₂ ⊢
    rw [StdMap.eraseValue_of_not_holds hh]
    exact hb c h₁ h₂

theorem step (h : WellKeyed s) (hb : HintBelow s) (unescapeString : String → String) {op : Op}
    (hop : op.isRemoveUnused = false) : HintBelow (step unescapeString op s) := by
  cases op with
  | appendNew it => exact HintBelow.appendNet (s := (s.alloc it).1) hb _
  | append p =>
    simp only [NetinfoList.step]
    split
    · exact hb.appendNet p
    · exact hb
  | remove p => exact hb.removeNet h p
  | removeUnused c => simp [Op.isRemoveUnused] at hop
  | clear => exact fun c h₁ h₂ => by simp only [NetinfoList.step, clear] at h₂; omega
  | rebuild => exact hb
  | setCurrent p b => exact hb

theorem run (h : WellKeyed s) (hb : HintBelow s) (unescapeString : String → String)
    {ops : List Op} (hops : ∀ op ∈ ops, op.isRemoveUnused = false) :
    HintBelow (run unescapeString ops s) := by
  induction ops generalizing s with
  | nil => exact hb
  | cons op ops ih =>
    exact ih (h.step _ op) (hb.step h _ (hops op (List.mem_cons_self _ _)))
      fun o ho => hops o (List.mem_cons_of_mem _ ho)

end HintBelow

/-- Without `RemoveUnusedNets`, every code up to the hint stays a key of
`m_netCodes`, so each code `getFreeNetCode` hands out is the least positive one
missing from `m_netCodes`: a code freed there by `RemoveNet` comes back before
any higher one. -/
theorem free_net_code_least (unescapeString : String → String) {ops : List Op}
    (hops : ∀ op ∈ ops, op.isRemoveUnused = false) :
    HintBelow (run unescapeString ops create) ∧ FreeCodeLeast (run unescapeString ops create) := by
  have h₀ : create.newNetCode = 0 := by decide
  have hb := HintBelow.run create_wellKeyed (fun c h₁ h₂ => by omega) unescapeString hops
  exact ⟨hb, hb.freeCodeLeast (create_wellKeyed.run _ ops)⟩

theorem free_net_code_least_occupied :
    (∀ op ∈ occupiedCodeRun, op.isRemoveUnused = false) ∧
      FreeCodeLeast (run id occupiedCodeRun create) :=
  ⟨by decide, (free_net_code_least id (by decide)).2⟩

def reusedCodeRun : List Op :=
  occupiedCodeRun++[.appendNew ⟨-1, "/D/N", "N", "", true⟩, .remove 2]

/-- After `reusedCodeRun` the net `/C/N` is registered under its name with code
2, which is missing from `m_netCodes`, so `getFreeNetCode` hands out 2 and the
next new net takes code 2 as well. -/
theorem getFreeNetCode_reuses_held_code :
    (run id reusedCodeRun create).getNetItemByName "/C/N" = some 3 ∧
      ((run id reusedCodeRun create).items 3).netCode = 2 ∧
      (run id reusedCodeRun create).getFreeNetCode = 2 ∧
      (run id (reusedCodeRun++[.appendNew ⟨-1, "/E/N", "N", "", true⟩]) create).getNetItemByName "/E/N" = some 5 ∧
      ((run id (reusedCodeRun++[.appendNew ⟨-1, "/E/N", "N", "", true⟩]) create).items 5).netCode = 2 := by
  decide

/-- `getFreeNetCode` as the C++ `int` runs it, for any occupied codes and any
hint, negative included, while some code from `max(m_newNetCode, 0) + 1` up to
`INT_MAX` is free: its loop ends within `m_netCodes.size() + 1` passes, since
every longer run of it stops on the same code, the least such free one, so never
0 and never a code in use; `AppendNet` keeps it as the new `m_newNetCode` and
gives it to the net. -/
theorem getFreeNetCodeInt_least_unused (s : NetinfoList)
    (hfree : ∃ c, max s.newNetCode 0 < c ∧ c ≤ INT_MAX ∧ c ∉ s.netCodes.keys) :
    (∀ fuel, s.netCodes.size+1 ≤ fuel →
      nextFreeNetCodeInt s.netCodes fuel (incrementInt (max s.newNetCode 0)) = s.getFreeNetCodeInt) ∧
    max s.newNetCode 0+1 ≤ s.getFreeNetCodeInt ∧ s.getFreeNetCodeInt ≤ INT_MAX ∧
    s.getFreeNetCodeInt ∉ s.netCodes.keys ∧
    (∀ c, max s.newNetCode 0+1 ≤ c → c < s.getFreeNetCodeInt → c ∈ s.netCodes.keys) ∧
    (∀ p, s.getNetItemByName (s.items p).netname = none →
      ((s.items p).netCode ≠ s.netCodes.size ∨ (s.items p).netCode < 0) →
      (s.appendNet p).newNetCode = s.getFreeNetCodeInt ∧
        ((s.appendNet p).items p).netCode = s.getFreeNetCodeInt) := by
  obtain ⟨c, hc₁, hc₂, hc₃⟩ := hfree
  obtain ⟨hlt, hnot, hmin⟩ := getFreeNetCode_spec s
  have hle : s.getFreeNetCode ≤ INT_MAX := (not_lt.mp fun h => hc₃ (hmin c hc₁ h)).trans hc₂
  have hinc : incrementInt (max s.newNetCode 0) = max s.newNetCode 0+1 := by
    rw [incrementInt, if_neg (by rw [INT_MAX] at hle ⊢; omega)]
  rw [getFreeNetCodeInt_eq s hle]
  refine ⟨fun fuel hf => ?_, by omega, hle, hnot, fun c h₁ h₂ => hmin c (by omega) h₂, fun p hn hc => ?_⟩
  · have habs := nextFreeNetCode_of_free _ hnot hf
    rw [hinc, nextFreeNetCodeInt_eq _ _ (by omega) (habs ▸ hle)]
    exact habs
  · rw [appendNet_of_new hn, assignNetCode, if_pos hc]
    simp [setItem]

theorem getFreeNetCodeInt_least_unused_gndVcc :
    (∃ c, max (run id gndVccRun create).newNetCode 0 < c ∧ c ≤ INT_MAX ∧
        c ∉ (run id gndVccRun create).netCodes.keys) ∧
      (run id gndVccRun create).getFreeNetCodeInt ∉ (run id gndVccRun create).netCodes.keys :=
  have h : ∃ c, max (run id gndVccRun create).newNetCode 0 < c ∧ c ≤ INT_MAX ∧
      c ∉ (run id gndVccRun create).netCodes.keys := ⟨3, by decide, by decide, by decide⟩
  ⟨h, (getFreeNetCodeInt_least_unused _ h).2.2.2.1⟩

/-- With the hint at `INT_MAX` and only code 0 in use, the increment wraps and
`getFreeNetCode` hands out `INT_MIN`, below `max(m_newNetCode, 0) + 1`. -/
theorem getFreeNetCodeInt_overflow :
    ({ create with newNetCode := INT_MAX } : NetinfoList).getFreeNetCodeInt = INT_MIN ∧
      INT_MIN < max ({ create with newNetCode := INT_MAX } : NetinfoList).newNetCode 0+1 := by
  decide

theorem mem_range_cast {n : ℕ} {c : ℤ} : c ∈ (List.range n).map ((↑) : ℕ → ℤ) ↔ 0 ≤ c ∧ c < n := by
  constructor
  · intro h
    obtain ⟨i, hi, rfl⟩ := List.mem_map.mp h
    rw [List.mem_range] at hi
    omega
  · exact fun ⟨h₀, h₁⟩ => List.mem_map.mpr ⟨c.toNat, List.mem_range.mpr (by omega), by omega⟩

/-- What appending keeps: the keys of `m_netCodes` are `0, ..., n - 1`, the
indices agree, and the hint lies in `[0, n)`. -/
structure Consecutive (s : NetinfoList) : Prop where
  keys : s.netCodes.keys = (List.range s.netCodes.size).map (↑)
  coded : NamesCoded s
  hint_nonneg : 0 ≤ s.newNetCode
  hint_lt : s.newNetCode < s.netCodes.size

namespace Consecutive
variable {s : NetinfoList}

theorem mem_keys (hc : Consecutive s) {c : ℤ} :
    c ∈ s.netCodes.keys ↔ 0 ≤ c ∧ c < s.netCodes.size := by
  rw [hc.keys, mem_range_cast]

theorem getFreeNetCode_eq (hc : Consecutive s) : s.getFreeNetCode = s.netCodes.size := by
  obtain ⟨hlt, hfree, hbelow⟩ := getFreeNetCode_spec s
  rw [hc.mem_keys] at hfree
  have h₀ := hc.hint_lt
  have h₁ := hc.hint_nonneg
  by_contra hne
  have := hc.mem_keys.mp (hbelow s.netCodes.size (by omega) (by omega))
  omega

theorem find_size (hc : Consecutive s) : s.netCodes.find (s.netCodes.size : ℤ) = none :=
  StdMap.find_eq_none.mpr fun v hv => by
    have := hc.mem_keys.mp (StdMap.mem_keys.mpr ⟨v, hv⟩)
    omega

theorem alloc (hc : Consecutive s) (it : NetinfoItem) : Consecutive (s.alloc it).1 :=
  ⟨hc.keys, hc.coded, hc.hint_nonneg, hc.hint_lt⟩

theorem assignNetCode_eq (hc : Consecutive s) (p : Ptr) :
    (s.assignNetCode p).2 = s.netCodes.size ∧ 0 ≤ (s.assignNetCode p).1 ∧
      (s.assignNetCode p).1 ≤ s.netCodes.size := by
  rcases assignNetCode_cases s p with ⟨he, hcode⟩ | he <;> rw [he]
  · exact ⟨hcode, hc.hint_nonneg, le_of_lt hc.hint_lt⟩
  · rw [hc.getFreeNetCode_eq]
    exact ⟨rfl, by omega, le_rfl⟩

theorem appendNet (hc : Consecutive s) (p : Ptr) : Consecutive (s.appendNet p) := by
  cases hq : s.getNetItemByName (s.items p).netname with
  | some q => rw [appendNet_of_merge hq]; exact ⟨hc.keys, hc.coded, hc.hint_nonneg, hc.hint_lt⟩
  | none =>
    obtain ⟨hcode, hh₀, hh₁⟩ := hc.assignNetCode_eq p
    have hfresh : s.netCodes.find (s.assignNetCode p).2 = none := hcode ▸ hc.find_size
    have hins : (s.netCodes.insert (s.assignNetCode p).2 p).entries =
        s.netCodes.entries++[((s.netCodes.size : ℤ), p)] := by
      rw [← hcode]
      exact StdMap.insertAux_of_gt fun y hy => by
        have := hc.mem_keys.mp (StdMap.mem_keys.mpr ⟨y.2, hy⟩)
        omega
    have hsize : (s.netCodes.insert (s.assignNetCode p).2 p).size = s.netCodes.size+1 := by
      simp only [StdMap.size, hins, List.length_append, List.length_singleton]
    have hnc : NamesCoded (s.appendNet p) := NamesCoded.appendNet (p := p) hc.coded
      (by simp [appendNetAssertsHold, hq, getNetItemByCode, hfresh])
    have hkeys := hc.keys
    rw [appendNet_of_new hq] at hnc ⊢
    refine ⟨?_, hnc, hh₀, ?_⟩
    · show (s.netCodes.insert _ p).keys = (List.range (s.netCodes.insert _ p).size).map _
      rw [hsize, List.range_succ, List.map_append, ← hkeys]
      simp only [StdMap.keys, hins, List.map_append, List.map_cons, List.map_nil]
    · show (s.assignNetCode p).1 < ((s.netCodes.insert (s.assignNetCode p).2 p).size : ℤ)
      rw [hsize]
      push_cast
      omega

end Consecutive

theorem create_consecutive : Consecutive create :=
  ⟨by decide, create_namesCoded, by decide, by decide⟩

def appendAll (its : List NetinfoItem) : NetinfoList :=
  its.foldl (fun s it => (s.alloc it).1.appendNet (s.alloc it).2) create

theorem appendAll_consecutive (its : List NetinfoItem) : Consecutive (appendAll its) := by
  suffices ∀ s, Consecutive s → Consecutive (its.foldl (fun s it => (s.alloc it).1.appendNet (s.alloc it).2) s)
    from this _ create_consecutive
  induction its with
  | nil => exact fun _ hc => hc
  | cons it its ih =>
    exact fun s hc => ih _ ((hc.alloc it).appendNet _)

theorem appendAll_eq_run (unescapeString : String → String) (its : List NetinfoItem) :
    appendAll its = run unescapeString (its.map .appendNew) create := by
  suffices ∀ s, its.foldl (fun s it => (s.alloc it).1.appendNet (s.alloc it).2) s =
      run unescapeString (its.map .appendNew) s from this create
  induction its with
  | nil => exact fun _ => rfl
  | cons it its ih => exact fun s => ih _

theorem appendNet_alloc_of_named {s : NetinfoList} (hw : WellKeyed s) {it : NetinfoItem} {q : Ptr}
    (hq : s.getNetItemByName it.netname = some q) :
    (((s.alloc it).1.appendNet s.next).items s.next).netCode = (s.items q).netCode ∧
      ((s.alloc it).1.appendNet s.next).netCodes = s.netCodes ∧
      ((s.alloc it).1.appendNet s.next).netNames = s.netNames := by
  have hq' : (s.alloc it).1.getNetItemByName ((s.alloc it).1.items s.next).netname = some q := by
    simpa [alloc, setItem, getNetItemByName] using hq
  have hqn : q ≠ s.next := ne_of_lt (hw.allocated _ (StdMap.find_eq_some.mp hq))
  rw [appendNet_of_merge hq']
  simp [alloc, setItem, hqn]

theorem Consecutive.appendNet_alloc_of_unnamed {s : NetinfoList} (hc : Consecutive s) {it : NetinfoItem}
    (hq : s.getNetItemByName it.netname = none) :
    (((s.alloc it).1.appendNet s.next).items s.next).netCode = s.netCodes.size ∧
      ((s.alloc it).1.appendNet s.next).getNetItemByCode s.netCodes.size = some s.next ∧
      ((s.alloc it).1.appendNet s.next).getNetItemByName it.netname = some s.next := by
  have hq' : (s.alloc it).1.getNetItemByName ((s.alloc it).1.items s.next).netname = none := by
    simpa [NetinfoList.alloc, setItem, getNetItemByName] using hq
  have hcode : ((s.alloc it).1.assignNetCode s.next).2 = s.netCodes.size :=
    ((hc.alloc it).assignNetCode_eq s.next).1
  rw [appendNet_of_new hq']
  refine ⟨by simp only [setItem, if_pos rfl]; exact hcode, ?_, ?_⟩
  · show (s.netCodes.insert _ s.next).find _ = _
    rw [hcode, StdMap.find_eq_some]
    exact StdMap.mem_insert.mpr (.inr ⟨rfl, hc.find_size⟩)
  · show (s.netNames.insert _ s.next).find _ = _
    rw [StdMap.find_eq_some]
    exact StdMap.mem_insert.mpr (.inr ⟨by simp [NetinfoList.alloc, setItem], hq'⟩)

/-- Appending to a fresh list numbers nets in order of first appearance: the keys
of `m_netCodes` are `0, ..., n - 1` for the `n` nets registered in both indices;
an appended item whose name is taken gets that net's code and leaves both
indices alone, and any other item gets code `n` and enters both. -/
theorem appendNet_numbering (its : List NetinfoItem) (it : NetinfoItem) :
    let s := appendAll its
    let s' := appendAll (its++[it])
    s.netCodes.keys = (List.range s.netCodes.size).map (↑) ∧ IndicesAgree s ∧
      (∀ q, s.getNetItemByName it.netname = some q →
        (s'.items s.next).netCode = (s.items q).netCode ∧ s'.netCodes = s.netCodes ∧
          s'.netNames = s.netNames) ∧
      (s.getNetItemByName it.netname = none →
        (s'.items s.next).netCode = s.netCodes.size ∧
          s'.getNetItemByCode s.netCodes.size = some s.next ∧
          s'.getNetItemByName it.netname = some s.next) := by
  intro s s'
  have hc : Consecutive s := appendAll_consecutive its
  have hw : WellKeyed s := by
    rw [show s = _ from appendAll_eq_run id its]
    exact create_wellKeyed.run id _
  have hs' : s' = (s.alloc it).1.appendNet s.next := by
    simp only [s', s, appendAll, List.foldl_append, List.foldl_cons, List.foldl_nil]
    rfl
  rw [hs']
  exact ⟨hc.keys, (indicesAgree_iff hw).mpr hc.coded, fun _ hq => appendNet_alloc_of_named hw hq,
    hc.appendNet_alloc_of_unnamed⟩

def Op.isGrowing : Op → Bool
  | .appendNew _ | .append _ | .rebuild | .setCurrent _ _ => true
  | _ => false

namespace Consecutive
variable {s : NetinfoList}

theorem appendNet_asserts (hc : Consecutive s) (p : Ptr) : appendNetAssertsHold p s = true := by
  unfold appendNetAssertsHold
  split
  · rfl
  · rw [(hc.assignNetCode_eq p).1]
    simp [getNetItemByCode, hc.find_size]

theorem step (hc : Consecutive s) (unescapeString : String → String) {op : Op} (hop : op.isGrowing = true) :
    assertsHold s op = true ∧ Consecutive (step unescapeString op s) := by
  cases op with
  | appendNew it => exact ⟨(hc.alloc it).appendNet_asserts _, (hc.alloc it).appendNet _⟩
  | append p =>
    simp only [assertsHold, NetinfoList.step]
    split_ifs with hp
    · exact ⟨by simp [hc.appendNet_asserts p], hc.appendNet p⟩
    · exact ⟨by simp [hp], hc⟩
  | rebuild | setCurrent _ _ => exact ⟨rfl, ⟨hc.1, hc.2, hc.3, hc.4⟩⟩
  | remove _ | removeUnused _ | clear => simp [Op.isGrowing] at hop

theorem run (hc : Consecutive s) (unescapeString : String → String) {ops : List Op}
    (hops : ∀ op ∈ ops, op.isGrowing = true) :
    assertsHoldAlong unescapeString ops s = true ∧ Consecutive (run unescapeString ops s) := by
  induction ops generalizing s with
  | nil => exact ⟨rfl, hc⟩
  | cons op ops ih =>
    obtain ⟨h₁, h₂⟩ := hc.step unescapeString (hops op (List.mem_cons_self _ _))
    obtain ⟨h₃, h₄⟩ := ih h₂ fun o ho => hops o (List.mem_cons_of_mem _ ho)
    exact ⟨by rw [assertsHoldAlong, h₁, h₃]; rfl, h₄⟩

end Consecutive

/-- Along every run from the constructor that only appends nets, rebuilds the
display names and changes `IsCurrent` flags, every `AppendNet` assertion holds,
the codes in use are exactly `0, ..., n - 1` for the `n` registered nets, and the
two indices agree. -/
theorem assertsHold_of_growing (unescapeString : String → String) {ops : List Op}
    (hops : ∀ op ∈ ops, op.isGrowing = true) :
    assertsHoldAlong unescapeString ops create = true ∧
      (run unescapeString ops create).netCodes.keys =
        (List.range (run unescapeString ops create).netCodes.size).map (↑) ∧
      IndicesAgree (run unescapeString ops create) := by
  obtain ⟨ha, hc⟩ := create_consecutive.run unescapeString hops
  exact ⟨ha, hc.keys, (indicesAgree_iff (create_wellKeyed.run _ ops)).mpr hc.coded⟩

def growingRun : List Op := gndVccRun++[.rebuild, .setCurrent 2 false, .append 3]

theorem assertsHold_of_growing_gndVcc :
    (∀ op ∈ growingRun, op.isGrowing = true) ∧ assertsHoldAlong id growingRun create = true :=
  ⟨by decide, (assertsHold_of_growing id (by decide)).1⟩

end Kicad.NetinfoList
