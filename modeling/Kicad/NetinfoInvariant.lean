import Kicad.NetinfoList

/-!
# Runs of the net list and the invariant they keep

A run is any sequence of calls on the list, with the changes a board makes to
net objects between them. Every run keeps each index entry under its item's
own code or name, and keeps the items of `m_netCodes` among those of
`m_netNames`. The converse inclusion is what the uniqueness assertions of
`AppendNet` protect, and it holds exactly as long as they do.
-/

set_option autoImplicit false

namespace Kicad.NetinfoList

/-- The calls a board makes on its net list: `AppendNet` of a new object or of
one allocated earlier, `RemoveNet`, `RemoveUnusedNets` with or without a commit,
`clear`, `RebuildDisplayNetnames`, and the connectivity marking a net current. -/
inductive Op
  | appendNew (it : NetinfoItem)
  | append (p : Ptr)
  | remove (p : Ptr)
  | removeUnused (withCommit : Bool)
  | clear
  | rebuild
  | setCurrent (p : Ptr) (b : Bool)

section Run
variable (unescapeString : String → String)

/-- One call. `AppendNet` is only ever given an allocated object. -/
def step : Op → NetinfoList → NetinfoList
  | .appendNew it, s => (s.alloc it).1.appendNet (s.alloc it).2
  | .append p, s => if p < s.next then s.appendNet p else s
  | .remove p, s => s.removeNet p
  | .removeUnused c, s => (s.removeUnusedNets (if c then some ⟨[]⟩ else none)).1
  | .clear, s => s.clear
  | .rebuild, s => s.rebuildDisplayNetnames unescapeString
  | .setCurrent p b, s => s.setItem p { s.items p with isCurrent := b }

def run : List Op → NetinfoList → NetinfoList
  | [], s => s
  | op::ops, s => run ops (step unescapeString op s)

theorem run_append (ops rest : List Op) (s : NetinfoList) :
    run unescapeString (ops++rest) s = run unescapeString rest (run unescapeString ops s) := by
  induction ops generalizing s with
  | nil => rfl
  | cons op ops ih => exact ih _

end Run

theorem setCurrent_keeps (s : NetinfoList) (p : Ptr) (b : Bool) (q : Ptr) :
    ((s.setItem p { s.items p with isCurrent := b }).items q).netCode = (s.items q).netCode ∧
      ((s.setItem p { s.items p with isCurrent := b }).items q).netname = (s.items q).netname := by
  by_cases hq : q = p <;> simp [setItem, hq]

section Keyed
variable {s : NetinfoList}

theorem names_nodup_of_keyed (hck : ∀ e ∈ s.netCodes.entries, e.1 = (s.items e.2).netCode)
    (hnk : ∀ e ∈ s.netNames.entries, e.1 = (s.items e.2).netname)
    (hcn : ∀ e ∈ s.netCodes.entries, ∃ n, (n, e.2) ∈ s.netNames.entries) (f : ℤ × Ptr → Bool) :
    ((s.netCodes.entries.filter f).map fun e => (s.items e.2).netname).Nodup := by
  refine (s.netCodes.nodup.filter _).map_on fun x hx y hy hxy => ?_
  obtain ⟨n, hn⟩ := hcn _ (List.mem_filter.mp hx).1
  obtain ⟨n', hn'⟩ := hcn _ (List.mem_filter.mp hy).1
  have e₁ : n = _ := hnk _ hn
  have e₂ : n' = _ := hnk _ hn'
  rw [e₁, hxy] at hn
  rw [e₂] at hn'
  exact StdMap.unique_of_keyed (fun q => (s.items q).netCode) hck y.2
    x (List.mem_filter.mp hx).1 y (List.mem_filter.mp hy).1 (StdMap.key_unique hn hn') rfl

theorem name_found_of_keyed (hk : ∀ e ∈ s.netNames.entries, e.1 = (s.items e.2).netname)
    {n : String} {p : Ptr} (hp : (n, p) ∈ s.netNames.entries) :
    s.getNetItemByName (s.items p).netname = some p := by
  rw [← hk _ hp]
  exact StdMap.find_eq_some.mpr hp

theorem merge_keeps_of_keyed (hk : ∀ e ∈ s.netNames.entries, e.1 = (s.items e.2).netname) {p q : Ptr}
    (hq : s.getNetItemByName (s.items p).netname = some q) :
    ∀ e ∈ s.netNames.entries,
      ((s.setItem p { s.items p with netCode := (s.items q).netCode }).items e.2).netCode =
          (s.items e.2).netCode ∧
        ((s.setItem p { s.items p with netCode := (s.items q).netCode }).items e.2).netname =
          (s.items e.2).netname := by
  intro e he
  by_cases hp : e.2 = p
  · rw [← hp, name_found_of_keyed hk he] at hq
    cases hq
    simp [setItem, hp]
  · simp [setItem, hp]

end Keyed

/-- What every reachable list satisfies: each entry of an index is keyed by its
item's own code or name, every item of `m_netCodes` is in `m_netNames`, and
every indexed address is allocated. -/
structure WellKeyed (s : NetinfoList) : Prop where
  codes_keyed : ∀ e ∈ s.netCodes.entries, e.1 = (s.items e.2).netCode
  names_keyed : ∀ e ∈ s.netNames.entries, e.1 = (s.items e.2).netname
  codes_named : ∀ e ∈ s.netCodes.entries, ∃ n, (n, e.2) ∈ s.netNames.entries
  allocated : ∀ e ∈ s.netNames.entries, e.2 < s.next

namespace WellKeyed
variable {s : NetinfoList}

theorem name_found (h : WellKeyed s) {n : String} {p : Ptr} (hp : (n, p) ∈ s.netNames.entries) :
    s.getNetItemByName (s.items p).netname = some p :=
  name_found_of_keyed h.names_keyed hp

theorem not_named (h : WellKeyed s) {p : Ptr} (hp : s.getNetItemByName (s.items p).netname = none)
    (n : String) : (n, p) ∉ s.netNames.entries := fun hn => by
  rw [h.name_found hn] at hp
  cases hp

theorem not_coded (h : WellKeyed s) {p : Ptr} (hp : s.getNetItemByName (s.items p).netname = none)
    (k : ℤ) : (k, p) ∉ s.netCodes.entries := fun hk =>
  let ⟨n, hn⟩ := h.codes_named _ hk
  h.not_named hp n hn

theorem names_nodup (h : WellKeyed s) (f : ℤ × Ptr → Bool) :
    ((s.netCodes.entries.filter f).map fun e => (s.items e.2).netname).Nodup :=
  names_nodup_of_keyed h.codes_keyed h.names_keyed h.codes_named f

theorem frame {t : NetinfoList} (h : WellKeyed s) (hc : t.netCodes = s.netCodes)
    (hn : t.netNames = s.netNames) (hnext : s.next ≤ t.next)
    (hi : ∀ e ∈ s.netNames.entries,
      (t.items e.2).netCode = (s.items e.2).netCode ∧ (t.items e.2).netname = (s.items e.2).netname) :
    WellKeyed t := by
  refine ⟨fun e he => ?_, fun e he => ?_, fun e he => hn ▸ h.codes_named e (hc ▸ he),
    fun e he => lt_of_lt_of_le (h.allocated e (hn ▸ he)) hnext⟩
  · rw [hc] at he
    obtain ⟨n, hm⟩ := h.codes_named e he
    rw [(hi _ hm).1]
    exact h.codes_keyed e he
  · rw [hn] at he
    rw [(hi e he).2]
    exact h.names_keyed e he

theorem alloc (h : WellKeyed s) (it : NetinfoItem) : WellKeyed (s.alloc it).1 :=
  h.frame rfl rfl (Nat.le_succ _) fun e he => by
    rw [alloc_items_of_ne it (ne_of_lt (h.allocated e he))]
    exact ⟨rfl, rfl⟩

theorem merge_keeps (h : WellKeyed s) {p q : Ptr} (hq : s.getNetItemByName (s.items p).netname = some q) :
    ∀ e ∈ s.netNames.entries,
      ((s.setItem p { s.items p with netCode := (s.items q).netCode }).items e.2).netCode =
          (s.items e.2).netCode ∧
        ((s.setItem p { s.items p with netCode := (s.items q).netCode }).items e.2).netname =
          (s.items e.2).netname :=
  merge_keeps_of_keyed h.names_keyed hq

theorem appendNet (h : WellKeyed s) {p : Ptr} (hp : p < s.next) : WellKeyed (s.appendNet p) := by
  cases hq : s.getNetItemByName (s.items p).netname with
  | some q =>
    rw [appendNet_of_merge hq]
    exact h.frame rfl rfl le_rfl (h.merge_keeps hq)
  | none =>
    rw [appendNet_of_new hq]
    have hn := h.not_named hq
    have hk := h.not_coded hq
    refine ⟨fun e he => ?_, fun e he => ?_, fun e he => ?_, fun e he => ?_⟩
    · rcases StdMap.mem_insert.mp he with he | ⟨rfl, -⟩
      · have : e.2 ≠ p := fun hep => hk e.1 (hep ▸ he)
        simpa [setItem, this] using h.codes_keyed e he
      · simp [setItem]
    · rcases StdMap.mem_insert.mp he with he | ⟨rfl, -⟩
      · have : e.2 ≠ p := fun hep => hn e.1 (hep ▸ he)
        simpa [setItem, this] using h.names_keyed e he
      · simp [setItem]
    · rcases StdMap.mem_insert.mp he with he | ⟨rfl, -⟩
      · obtain ⟨n, hm⟩ := h.codes_named e he
        exact ⟨n, StdMap.mem_insert.mpr (.inl hm)⟩
      · exact ⟨_, StdMap.mem_insert.mpr (.inr ⟨rfl, hq⟩)⟩
    · rcases StdMap.mem_insert.mp he with he | ⟨rfl, -⟩
      · exact h.allocated e he
      · exact hp

theorem removeNet (h : WellKeyed s) (p : Ptr) : WellKeyed (s.removeNet p) := by
  have hcu := StdMap.unique_of_keyed (fun q => (s.items q).netCode) h.codes_keyed p
  have hnu := StdMap.unique_of_keyed (fun q => (s.items q).netname) h.names_keyed p
  have hc := fun e => StdMap.mem_eraseValue (x := e) hcu
  have hn := fun e => StdMap.mem_eraseValue (x := e) hnu
  have key :
      WellKeyed { s with netCodes := s.netCodes.eraseValue p, netNames := s.netNames.eraseValue p } := by
    refine ⟨fun e he => h.codes_keyed e ((hc e).mp he).1, fun e he => h.names_keyed e ((hn e).mp he).1,
      fun e he => ?_, fun e he => h.allocated e ((hn e).mp he).1⟩
    obtain ⟨he, hep⟩ := (hc e).mp he
    obtain ⟨n, hm⟩ := h.codes_named e he
    exact ⟨n, (hn _).mpr ⟨hm, hep⟩⟩
  unfold NetinfoList.removeNet
  split
  · exact ⟨key.1, key.2, key.3, key.4⟩
  · exact key

theorem removeUnusedNets (h : WellKeyed s) (c : Option BoardCommit) :
    WellKeyed (s.removeUnusedNets c).1 := by
  have hm := fun x => mem_removeUnusedNets_netNames c (x := x) (h.names_nodup _)
  rw [removeUnusedNets_fst] at hm ⊢
  refine ⟨fun e he => h.codes_keyed e (List.mem_filter.mp he).1, fun e he => ?_, fun e he => ?_,
    fun e he => ?_⟩
  · obtain ⟨k, -, -, hk⟩ := (hm e).mp he
    exact hk
  · obtain ⟨he, hcur⟩ := List.mem_filter.mp he
    exact ⟨_, (hm ((s.items e.2).netname, e.2)).mpr ⟨e.1, he, hcur, rfl⟩⟩
  · obtain ⟨k, hk, -, -⟩ := (hm e).mp he
    obtain ⟨n, hn⟩ := h.codes_named _ hk
    exact h.allocated (n, e.2) hn

theorem clear : WellKeyed s.clear :=
  ⟨fun _ he => absurd he (List.not_mem_nil _), fun _ he => absurd he (List.not_mem_nil _),
    fun _ he => absurd he (List.not_mem_nil _), fun _ he => absurd he (List.not_mem_nil _)⟩

theorem rebuildDisplayNetnames (h : WellKeyed s) (unescapeString : String → String) :
    WellKeyed (s.rebuildDisplayNetnames unescapeString) :=
  h.frame rfl rfl le_rfl fun e _ => rebuildDisplayNetnames_keeps unescapeString s e.2

theorem setCurrent (h : WellKeyed s) (p : Ptr) (b : Bool) :
    WellKeyed (s.setItem p { s.items p with isCurrent := b }) :=
  h.frame rfl rfl le_rfl fun e _ => setCurrent_keeps s p b e.2

theorem step (h : WellKeyed s) (unescapeString : String → String) (op : Op) :
    WellKeyed (step unescapeString op s) := by
  cases op with
  | appendNew it => exact (h.alloc it).appendNet (by simp [NetinfoList.alloc])
  | append p =>
    simp only [NetinfoList.step]
    split
    · exact h.appendNet ‹_›
    · exact h
  | remove p => exact h.removeNet p
  | removeUnused c => exact h.removeUnusedNets _
  | clear => exact WellKeyed.clear
  | rebuild => exact h.rebuildDisplayNetnames unescapeString
  | setCurrent p b => exact h.setCurrent p b

theorem run (h : WellKeyed s) (unescapeString : String → String) (ops : List Op) :
    WellKeyed (run unescapeString ops s) := by
  induction ops generalizing s with
  | nil => exact h
  | cons op ops ih => exact ih (h.step unescapeString op)

end WellKeyed

theorem create_wellKeyed : WellKeyed create := by
  have h₀ : WellKeyed ⟨fun _ => default, 0, .empty, .empty, 0, true⟩ :=
    ⟨fun _ he => absurd he (List.not_mem_nil _), fun _ he => absurd he (List.not_mem_nil _),
      fun _ he => absurd he (List.not_mem_nil _), fun _ he => absurd he (List.not_mem_nil _)⟩
  exact (h₀.alloc unconnectedItem).appendNet (by simp [alloc])

/-- The two indices hold the same items, each under its own code and its own name. -/
def IndicesAgree (s : NetinfoList) : Prop :=
  (∀ e ∈ s.netCodes.entries, e.1 = (s.items e.2).netCode ∧ s.netNames.holds e.2) ∧
    ∀ e ∈ s.netNames.entries, e.1 = (s.items e.2).netname ∧ s.netCodes.holds e.2

instance (s : NetinfoList) : Decidable (IndicesAgree s) := inferInstanceAs (Decidable (_ ∧ _))

def occupiedCodeRun : List Op :=
  [.appendNew ⟨-1, "/A/N", "N", "", true⟩, .appendNew ⟨-1, "/B/N", "N", "", true⟩, .remove 1,
    .appendNew ⟨2, "/C/N", "N", "", true⟩]

theorem appendNet_keeps_occupied_code :
    appendNetAssertsHold 3 ((run id (occupiedCodeRun.take 3) create).alloc ⟨2, "/C/N", "N", "", true⟩).1
        = false ∧
      (run id occupiedCodeRun create).getNetItemByName "/C/N" = some 3 ∧
      (run id occupiedCodeRun create).getNetItemByCode
        ((run id occupiedCodeRun create).items 3).netCode = some 2 ∧
      ¬IndicesAgree (run id occupiedCodeRun create) := by
  decide

def NamesCoded (s : NetinfoList) : Prop :=
  ∀ e ∈ s.netNames.entries, ∃ k, (k, e.2) ∈ s.netCodes.entries

theorem indicesAgree_iff {s : NetinfoList} (h : WellKeyed s) : IndicesAgree s ↔ NamesCoded s := by
  constructor
  · exact fun ha e he => StdMap.holds_iff.mp (ha.2 e he).2
  · exact fun hc => ⟨fun e he => ⟨h.codes_keyed e he, StdMap.holds_iff.mpr (h.codes_named e he)⟩,
      fun e he => ⟨h.names_keyed e he, StdMap.holds_iff.mpr (hc e he)⟩⟩

theorem create_namesCoded : NamesCoded create := (indicesAgree_iff create_wellKeyed).mp (by decide)

section Agreement
variable (unescapeString : String → String)

def assertsHold (s : NetinfoList) : Op → Bool
  | .appendNew it => appendNetAssertsHold (s.alloc it).2 (s.alloc it).1
  | .append p => !decide (p < s.next) || appendNetAssertsHold p s
  | _ => true

def assertsHoldAlong : List Op → NetinfoList → Bool
  | [], _ => true
  | op::ops, s => assertsHold s op && assertsHoldAlong ops (step unescapeString op s)

namespace NamesCoded
variable {s : NetinfoList}

theorem appendNet (hc : NamesCoded s) {p : Ptr} (ha : appendNetAssertsHold p s = true) :
    NamesCoded (s.appendNet p) := by
  cases hq : s.getNetItemByName (s.items p).netname with
  | some q => rw [appendNet_of_merge hq]; exact hc
  | none =>
    rw [appendNet_of_new hq]
    simp only [appendNetAssertsHold, hq, Option.isNone_iff_eq_none] at ha
    intro e he
    rcases StdMap.mem_insert.mp he with he | ⟨rfl, -⟩
    · obtain ⟨k, hk⟩ := hc e he
      exact ⟨k, StdMap.mem_insert.mpr (.inl hk)⟩
    · exact ⟨_, StdMap.mem_insert.mpr (.inr ⟨rfl, ha⟩)⟩

theorem removeNet (h : WellKeyed s) (hc : NamesCoded s) (p : Ptr) : NamesCoded (s.removeNet p) := by
  have key : NamesCoded
      { s with netCodes := s.netCodes.eraseValue p, netNames := s.netNames.eraseValue p } := by
    intro e he
    have hcu := StdMap.unique_of_keyed (fun q => (s.items q).netCode) h.codes_keyed p
    have hnu := StdMap.unique_of_keyed (fun q => (s.items q).netname) h.names_keyed p
    obtain ⟨he, hep⟩ := (StdMap.mem_eraseValue hnu).mp he
    obtain ⟨k, hk⟩ := hc e he
    exact ⟨k, (StdMap.mem_eraseValue hcu).mpr ⟨hk, hep⟩⟩
  unfold NetinfoList.removeNet
  split
  · exact key
  · exact key

theorem removeUnusedNets (h : WellKeyed s) (c : Option BoardCommit) :
    NamesCoded (s.removeUnusedNets c).1 := by
  intro e he
  obtain ⟨k, hk, hcur, -⟩ := (mem_removeUnusedNets_netNames c (h.names_nodup _)).mp he
  rw [removeUnusedNets_fst]
  exact ⟨k, List.mem_filter.mpr ⟨hk, hcur⟩⟩

theorem step (h : WellKeyed s) (hc : NamesCoded s) {op : Op} (ha : assertsHold s op = true) :
    NamesCoded (step unescapeString op s) := by
  cases op with
  | appendNew it => exact NamesCoded.appendNet (s := (s.alloc it).1) (p := (s.alloc it).2) hc ha
  | append p =>
    simp only [NetinfoList.step]
    split
    · exact NamesCoded.appendNet hc (by simpa [assertsHold, *] using ha)
    · exact hc
  | remove p => exact hc.removeNet h p
  | removeUnused c => exact NamesCoded.removeUnusedNets h _
  | clear => exact fun _ he => absurd he (List.not_mem_nil _)
  | rebuild => exact hc
  | setCurrent p b => exact hc

theorem run (h : WellKeyed s) (hc : NamesCoded s) {ops : List Op}
    (ha : assertsHoldAlong unescapeString ops s = true) : NamesCoded (run unescapeString ops s) := by
  induction ops generalizing s with
  | nil => exact hc
  | cons op ops ih =>
    rw [assertsHoldAlong, Bool.and_eq_true] at ha
    exact ih (h.step _ op) (NamesCoded.step unescapeString h hc ha.1) ha.2

end NamesCoded

/-- The indices agree after every run whose `AppendNet` assertions all hold: a
failed assertion is the only way they come apart. -/
theorem indicesAgree_of_asserts {ops : List Op}
    (ha : assertsHoldAlong unescapeString ops create = true) :
    IndicesAgree (run unescapeString ops create) :=
  (indicesAgree_iff (create_wellKeyed.run _ ops)).mpr
    (NamesCoded.run unescapeString create_wellKeyed create_namesCoded ha)

def gndVccRun : List Op :=
  [.appendNew ⟨-1, "GND", "GND", "", true⟩, .appendNew ⟨-1, "VCC", "VCC", "", true⟩,
    .appendNew ⟨-1, "GND", "GND", "", true⟩]

theorem indicesAgree_gndVcc :
    assertsHoldAlong id gndVccRun create = true ∧ IndicesAgree (run id gndVccRun create) :=
  ⟨by decide, indicesAgree_of_asserts id (by decide)⟩

end Agreement

end Kicad.NetinfoList
