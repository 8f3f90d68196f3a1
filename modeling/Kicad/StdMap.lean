import Mathlib.Data.String.Basic
import Mathlib.Data.List.Sort

/-!
# `std::map` as a sorted association list

Both indices of the net list, the export translation table and the set of
used net codes are ordered standard containers. A map is its entries in
ascending key order, and the order is a field, so keys are unique by
construction. `insert` leaves an existing key alone, as `std::map::insert`
does; `assign` is `m[k] = v`.
-/

set_option autoImplicit false

namespace Kicad

instance stringDecLt : DecidableRel (α := String) (· < ·) :=
  fun a b => decidable_of_iff (a.toList < b.toList) String.lt_iff_toList_lt.symm

/-- `std::map<K, V>`: its entries in strictly ascending key order. -/
@[ext]
structure StdMap (K V : Type) [LinearOrder K] where
  entries : List (K × V)
  sorted : entries.Pairwise (fun a b => a.1 < b.1)

namespace StdMap
variable {K V : Type}

def eraseAux [DecidableEq V] (v : V) : List (K × V) → List (K × V)
  | [] => []
  | e::es => if e.2 = v then es else e::eraseAux v es

theorem eraseAux_sublist [DecidableEq V] (v : V) (l : List (K × V)) : (eraseAux v l).Sublist l := by
  induction l with
  | nil => exact .slnil
  | cons e es ih =>
    simp only [eraseAux]
    split_ifs
    · exact .cons e (List.Sublist.refl es)
    · exact ih.cons₂ e

theorem eraseAux_of_forall_ne [DecidableEq V] {v : V} {l : List (K × V)}
    (h : ∀ e ∈ l, e.2 ≠ v) : eraseAux v l = l := by
  induction l with
  | nil => rfl
  | cons e es ih =>
    simp only [eraseAux, h e (List.mem_cons_self _ _), if_false,
      ih fun x hx => h x (List.mem_cons_of_mem _ hx)]

theorem mem_eraseAux_iff [DecidableEq V] {v : V} {x : K × V} {l : List (K × V)} (hnd : l.Nodup)
    (hu : ∀ y ∈ l, ∀ z ∈ l, y.2 = v → z.2 = v → y = z) : x ∈ eraseAux v l ↔ x ∈ l ∧ x.2 ≠ v := by
  induction l with
  | nil => simp [eraseAux]
  | cons e es ih =>
    rw [List.nodup_cons] at hnd
    simp only [eraseAux]
    split_ifs with he
    · constructor
      · intro hx
        refine ⟨List.mem_cons_of_mem _ hx, fun hxv => hnd.1 ?_⟩
        rwa [hu e (List.mem_cons_self _ _) x (List.mem_cons_of_mem _ hx) he hxv]
      · rintro ⟨hx, hxv⟩
        rcases List.mem_cons.mp hx with rfl | hx
        · exact absurd he hxv
        · exact hx
    · rw [List.mem_cons, List.mem_cons, ih hnd.2 fun y hy z hz =>
        hu y (List.mem_cons_of_mem _ hy) z (List.mem_cons_of_mem _ hz)]
      constructor
      · rintro (rfl | ⟨hx, hxv⟩)
        · exact ⟨.inl rfl, he⟩
        · exact ⟨.inr hx, hxv⟩
      · rintro ⟨rfl | hx, hxv⟩
        · exact .inl rfl
        · exact .inr ⟨hx, hxv⟩

variable [LinearOrder K]

def empty : StdMap K V := ⟨[], .nil⟩

def size (m : StdMap K V) : ℕ := m.entries.length

def keys (m : StdMap K V) : List K := m.entries.map Prod.fst

theorem nodup (m : StdMap K V) : m.entries.Nodup :=
  m.sorted.imp fun h e => ne_of_lt h (congrArg Prod.fst e)

theorem unique_of_keyed {m : StdMap K V} (f : V → K) (hk : ∀ e ∈ m.entries, e.1 = f e.2) (v : V) :
    ∀ y ∈ m.entries, ∀ z ∈ m.entries, y.2 = v → z.2 = v → y = z :=
  fun y hy z hz hyv hzv => Prod.ext (by rw [hk y hy, hk z hz, hyv, hzv]) (hyv.trans hzv.symm)

theorem nodup_values_of_keyed {m : StdMap K V} (f : V → K) (hk : ∀ e ∈ m.entries, e.1 = f e.2) :
    (m.entries.map Prod.snd).Nodup :=
  m.nodup.map_on fun x hx y hy hxy => unique_of_keyed f hk _ x hx y hy hxy rfl

theorem eq_of_mem_iff {m m' : StdMap K V} (h : ∀ x, x ∈ m.entries ↔ x ∈ m'.entries) : m = m' :=
  StdMap.ext (@List.eq_of_perm_of_sorted _ _ ⟨fun _ _ hab hba => absurd (hab.trans hba) (lt_irrefl _)⟩
    _ _ ((List.perm_ext_iff_of_nodup m.nodup m'.nodup).2 h) m.sorted m'.sorted)

/-- One search loop of `RemoveNet`: the first entry holding `v` is erased. -/
def eraseValue [DecidableEq V] (m : StdMap K V) (v : V) : StdMap K V :=
  ⟨eraseAux v m.entries, m.sorted.sublist (eraseAux_sublist v m.entries)⟩

def holds [DecidableEq V] (m : StdMap K V) (v : V) : Bool := m.entries.any (fun e => e.2 = v)

theorem holds_iff [DecidableEq V] {m : StdMap K V} {v : V} :
    m.holds v = true ↔ ∃ k, (k, v) ∈ m.entries := by
  simp only [holds, List.any_eq_true, decide_eq_true_eq, Prod.exists, exists_eq_right]

theorem mem_eraseValue [DecidableEq V] {m : StdMap K V} {v : V} {x : K × V}
    (hu : ∀ y ∈ m.entries, ∀ z ∈ m.entries, y.2 = v → z.2 = v → y = z) :
    x ∈ (m.eraseValue v).entries ↔ x ∈ m.entries ∧ x.2 ≠ v :=
  mem_eraseAux_iff m.nodup hu

theorem holds_eraseValue [DecidableEq V] {m : StdMap K V} {v : V}
    (hu : ∀ y ∈ m.entries, ∀ z ∈ m.entries, y.2 = v → z.2 = v → y = z) : (m.eraseValue v).holds v = false :=
  Bool.eq_false_iff.mpr fun h =>
    let ⟨_, hk⟩ := holds_iff.mp h
    ((mem_eraseValue hu).mp hk).2 rfl

theorem eraseValue_of_not_holds [DecidableEq V] {m : StdMap K V} {v : V}
    (h : m.holds v = false) : m.eraseValue v = m := by
  have : ∀ e ∈ m.entries, e.2 ≠ v := fun e he hev =>
    Bool.eq_false_iff.mp h (holds_iff.mpr ⟨e.1, by rw [← hev]; exact he⟩)
  cases m
  simp only [eraseValue, eraseAux_of_forall_ne this]

theorem mem_keys {m : StdMap K V} {k : K} : k ∈ m.keys ↔ ∃ v, (k, v) ∈ m.entries := by
  simp only [keys, List.mem_map, Prod.exists, exists_and_right, exists_eq_right]

theorem interval_le_size {m : StdMap ℤ V} {a : ℤ} {n : ℕ}
    (h : ∀ c, a ≤ c → c < a+n → c ∈ m.keys) : n ≤ m.size := by
  have hnd : ((List.range n).map fun i : ℕ => a+i).Nodup :=
    (List.nodup_range n).map fun i j (hij : a+(i : ℤ) = a+j) => by omega
  have hsub : ((List.range n).map fun i : ℕ => a+i) ⊆ m.keys := by
    intro c hc
    obtain ⟨i, hi, rfl⟩ := List.mem_map.mp hc
    exact h _ (by omega) (by simp at hi; omega)
  simpa [size, keys] using (List.subperm_of_subset hnd hsub).length_le

variable [DecidableEq K]

def findAux (k : K) : List (K × V) → Option V
  | [] => none
  | e::es => if e.1 = k then some e.2 else findAux k es

def find (m : StdMap K V) (k : K) : Option V := findAux k m.entries

def count (m : StdMap K V) (k : K) : ℕ := if (m.find k).isSome then 1 else 0

theorem findAux_eq_some {k : K} {v : V} {l : List (K × V)}
    (hl : l.Pairwise (fun a b => a.1 < b.1)) : findAux k l = some v ↔ (k, v) ∈ l := by
  induction l with
  | nil => simp [findAux]
  | cons e es ih =>
    obtain ⟨a, b⟩ := e
    rw [List.pairwise_cons] at hl
    simp only [findAux, List.mem_cons, Prod.mk.injEq]
    by_cases ha : a = k
    · subst ha
      simp only [if_true, Option.some.injEq, true_and]
      constructor
      · rintro rfl; exact .inl rfl
      · rintro (rfl | h)
        · rfl
        · exact absurd (hl.1 _ h) (lt_irrefl _)
    · simp only [ha, if_false, ih hl.2, Ne.symm ha, false_and, false_or]

theorem find_eq_some {m : StdMap K V} {k : K} {v : V} : m.find k = some v ↔ (k, v) ∈ m.entries :=
  findAux_eq_some m.sorted

theorem find_eq_none {m : StdMap K V} {k : K} : m.find k = none ↔ ∀ v, (k, v) ∉ m.entries := by
  rw [Option.eq_none_iff_forall_not_mem]
  exact forall_congr' fun v => not_congr find_eq_some

theorem find_isSome {m : StdMap K V} {k : K} : (m.find k).isSome ↔ k ∈ m.keys := by
  rw [mem_keys, Option.isSome_iff_exists]
  exact exists_congr fun v => find_eq_some

theorem count_eq_zero {m : StdMap K V} {k : K} : m.count k = 0 ↔ k ∉ m.keys := by
  rw [← find_isSome]
  simp [count]

theorem key_unique {m : StdMap K V} {k : K} {v w : V} (hv : (k, v) ∈ m.entries)
    (hw : (k, w) ∈ m.entries) : v = w :=
  Option.some.inj ((find_eq_some.mpr hv).symm.trans (find_eq_some.mpr hw))

variable [DecidableRel (α := K) (· < ·)]

def insertAux (k : K) (v : V) : List (K × V) → List (K × V)
  | [] => [(k, v)]
  | e::es => if k < e.1 then (k, v)::e::es else if k = e.1 then e::es else e::insertAux k v es

def assignAux (k : K) (v : V) : List (K × V) → List (K × V)
  | [] => [(k, v)]
  | e::es => if k < e.1 then (k, v)::e::es else if k = e.1 then (k, v)::es else e::assignAux k v es

theorem mem_insertAux {k : K} {v : V} {x : K × V} {l : List (K × V)}
    (h : x ∈ insertAux k v l) : x ∈ l ∨ x = (k, v) := by
  induction l with
  | nil => simpa [insertAux] using h
  | cons e es ih =>
    simp only [insertAux] at h
    split_ifs at h
    · exact (List.mem_cons.1 h).symm
    · exact .inl h
    · rcases List.mem_cons.1 h with rfl | h
      · exact .inl (List.mem_cons_self _ _)
      · exact (ih h).imp_left (List.mem_cons_of_mem _)

theorem mem_assignAux {k : K} {v : V} {x : K × V} {l : List (K × V)}
    (h : x ∈ assignAux k v l) : x ∈ l ∨ x = (k, v) := by
  induction l with
  | nil => simpa [assignAux] using h
  | cons e es ih =>
    simp only [assignAux] at h
    split_ifs at h
    · exact (List.mem_cons.1 h).symm
    · exact (List.mem_cons.1 h).symm.imp_left (List.mem_cons_of_mem _)
    · rcases List.mem_cons.1 h with rfl | h
      · exact .inl (List.mem_cons_self _ _)
      · exact (ih h).imp_left (List.mem_cons_of_mem _)

theorem insertAux_sorted {k : K} {v : V} {l : List (K × V)}
    (hl : l.Pairwise (fun a b => a.1 < b.1)) :
    (insertAux k v l).Pairwise (fun a b => a.1 < b.1) := by
  induction l with
  | nil => simp [insertAux]
  | cons e es ih =>
    rw [List.pairwise_cons] at hl
    simp only [insertAux]
    split_ifs with h₁ h₂
    · refine List.Pairwise.cons (fun x hx => ?_) (List.Pairwise.cons hl.1 hl.2)
      rcases List.mem_cons.mp hx with rfl | hx
      · exact h₁
      · exact h₁.trans (hl.1 x hx)
    · exact List.Pairwise.cons hl.1 hl.2
    · refine List.Pairwise.cons (fun x hx => ?_) (ih hl.2)
      rcases mem_insertAux hx with hx | rfl
      · exact hl.1 x hx
      · exact lt_of_le_of_ne (not_lt.mp h₁) (Ne.symm h₂)

theorem assignAux_sorted {k : K} {v : V} {l : List (K × V)}
    (hl : l.Pairwise (fun a b => a.1 < b.1)) :
    (assignAux k v l).Pairwise (fun a b => a.1 < b.1) := by
  induction l with
  | nil => simp [assignAux]
  | cons e es ih =>
    rw [List.pairwise_cons] at hl
    simp only [assignAux]
    split_ifs with h₁ h₂
    · refine List.Pairwise.cons (fun x hx => ?_) (List.Pairwise.cons hl.1 hl.2)
      rcases List.mem_cons.mp hx with rfl | hx
      · exact h₁
      · exact h₁.trans (hl.1 x hx)
    · exact List.Pairwise.cons (fun x hx => h₂ ▸ hl.1 x hx) hl.2
    · refine List.Pairwise.cons (fun x hx => ?_) (ih hl.2)
      rcases mem_assignAux hx with hx | rfl
      · exact hl.1 x hx
      · exact lt_of_le_of_ne (not_lt.mp h₁) (Ne.symm h₂)

def insert (m : StdMap K V) (k : K) (v : V) : StdMap K V :=
  ⟨insertAux k v m.entries, insertAux_sorted m.sorted⟩

def assign (m : StdMap K V) (k : K) (v : V) : StdMap K V :=
  ⟨assignAux k v m.entries, assignAux_sorted m.sorted⟩

theorem findAux_assignAux (k k' : K) (v : V) (l : List (K × V)) :
    findAux k' (assignAux k v l) = if k = k' then some v else findAux k' l := by
  induction l with
  | nil => rfl
  | cons e es ih =>
    by_cases h₁ : k < e.1
    · simp only [assignAux, if_pos h₁, findAux]
    by_cases h₂ : k = e.1
    · subst h₂
      simp only [assignAux, if_neg h₁, if_true, findAux]
      split_ifs <;> rfl
    simp only [assignAux, if_neg h₁, if_neg h₂, findAux, ih]
    by_cases h : e.1 = k'
    · subst h
      simp [h₂]
    · simp [h]

theorem find_assign (m : StdMap K V) (k k' : K) (v : V) :
    (m.assign k v).find k' = if k = k' then some v else m.find k' :=
  findAux_assignAux k k' v m.entries

theorem find_foldl_increment {α : Type} (f : α → K) (l : List α) (m : StdMap K ℤ) (k : K) :
    ((l.foldl (fun m e => m.assign (f e) ((m.find (f e)).getD 0+1)) m).find k).getD 0 =
      (m.find k).getD 0+l.countP (fun e => f e = k) := by
  induction l generalizing m with
  | nil => simp
  | cons e es ih =>
    rw [List.foldl_cons, ih, find_assign, List.countP_cons]
    by_cases h : f e = k
    · subst h
      simp
      omega
    · simp [h]

theorem mem_insertAux_of_mem {k : K} {v : V} {x : K × V} {l : List (K × V)} (h : x ∈ l) :
    x ∈ insertAux k v l := by
  induction l with
  | nil => simp at h
  | cons e es ih =>
    simp only [insertAux]
    split_ifs
    · exact List.mem_cons_of_mem _ h
    · exact h
    · rcases List.mem_cons.mp h with rfl | h
      · exact List.mem_cons_self _ _
      · exact List.mem_cons_of_mem _ (ih h)

theorem self_mem_insertAux {k : K} {v : V} {l : List (K × V)} (h : ∀ w, (k, w) ∉ l) :
    (k, v) ∈ insertAux k v l := by
  induction l with
  | nil => simp [insertAux]
  | cons e es ih =>
    simp only [insertAux]
    split_ifs with h₁ h₂
    · simp
    · exact absurd (List.mem_cons_self _ _) (h₂ ▸ h e.2)
    · exact List.mem_cons_of_mem _ (ih fun w hw => h w (List.mem_cons_of_mem _ hw))

theorem insertAux_of_mem {k : K} {v w : V} {l : List (K × V)}
    (hl : l.Pairwise (fun a b => a.1 < b.1)) (h : (k, w) ∈ l) : insertAux k v l = l := by
  induction l with
  | nil => simp at h
  | cons e es ih =>
    rw [List.pairwise_cons] at hl
    simp only [insertAux]
    rcases List.mem_cons.mp h with rfl | h
    · simp
    · have := hl.1 _ h
      simp only [not_lt_of_gt this, ne_of_gt this, if_false, ih hl.2 h]

theorem mem_insert {m : StdMap K V} {k : K} {v : V} {x : K × V} :
    x ∈ (m.insert k v).entries ↔ x ∈ m.entries ∨ x = (k, v) ∧ m.find k = none := by
  constructor
  · intro h
    rcases mem_insertAux h with h | rfl
    · exact .inl h
    · cases hf : m.find k with
      | none => exact .inr ⟨rfl, rfl⟩
      | some w =>
        exact .inl (by simpa only [insert, insertAux_of_mem m.sorted (find_eq_some.mp hf)] using h)
  · rintro (h | ⟨rfl, hf⟩)
    · exact mem_insertAux_of_mem h
    · exact self_mem_insertAux (find_eq_none.mp hf)

theorem eraseValue_insert [DecidableEq V] {m : StdMap K V} {k : K} {v : V} (hv : m.holds v = false) :
    (m.insert k v).eraseValue v = m := by
  have hnot : ∀ x ∈ m.entries, x.2 ≠ v := fun x hx hxv =>
    Bool.eq_false_iff.mp hv (holds_iff.mpr ⟨x.1, by rw [← hxv]; exact hx⟩)
  have hu : ∀ y ∈ (m.insert k v).entries, ∀ z ∈ (m.insert k v).entries, y.2 = v → z.2 = v → y = z := by
    intro y hy z hz hyv hzv
    rcases mem_insert.mp hy with hy | ⟨rfl, -⟩
    · exact absurd hyv (hnot y hy)
    rcases mem_insert.mp hz with hz | ⟨rfl, -⟩
    · exact absurd hzv (hnot z hz)
    rfl
  refine eq_of_mem_iff fun x => ?_
  rw [mem_eraseValue hu, mem_insert]
  constructor
  · rintro ⟨hx | ⟨rfl, -⟩, hxv⟩
    · exact hx
    · exact absurd rfl hxv
  · exact fun hx => ⟨.inl hx, hnot x hx⟩

theorem insert_eraseValue [DecidableEq V] {m : StdMap K V} {k : K} {v : V}
    (hu : ∀ y ∈ m.entries, ∀ z ∈ m.entries, y.2 = v → z.2 = v → y = z) (hkv : (k, v) ∈ m.entries) :
    (m.eraseValue v).insert k v = m := by
  have hfree : (m.eraseValue v).find k = none := find_eq_none.mpr fun w hw =>
    let ⟨hw, hwv⟩ := (mem_eraseValue hu).mp hw
    hwv (key_unique hw hkv)
  refine eq_of_mem_iff fun x => ?_
  rw [mem_insert, mem_eraseValue hu]
  constructor
  · rintro (⟨hx, -⟩ | ⟨rfl, -⟩)
    · exact hx
    · exact hkv
  · intro hx
    by_cases hxv : x.2 = v
    · exact .inr ⟨hu x hx _ hkv hxv rfl, hfree⟩
    · exact .inl ⟨hx, hxv⟩
theorem keys_subset_insert {m : StdMap K V} {k k' : K} {v : V} (h : k ∈ m.keys) :
    k ∈ (m.insert k' v).keys := by
  obtain ⟨w, hw⟩ := mem_keys.mp h
  exact mem_keys.mpr ⟨w, mem_insert.mpr (.inl hw)⟩

theorem mem_keys_insert {m : StdMap K V} {k k' : K} {v : V} :
    k ∈ (m.insert k' v).keys ↔ k ∈ m.keys ∨ k = k' := by
  constructor
  · intro h
    obtain ⟨w, hw⟩ := mem_keys.mp h
    rcases mem_insert.mp hw with hw | ⟨hw, -⟩
    · exact .inl (mem_keys.mpr ⟨w, hw⟩)
    · exact .inr (Prod.mk.inj hw).1
  · rintro (h | rfl)
    · exact keys_subset_insert h
    · cases hf : m.find k with
      | none => exact mem_keys.mpr ⟨v, mem_insert.mpr (.inr ⟨rfl, hf⟩)⟩
      | some w => exact keys_subset_insert (mem_keys.mpr ⟨w, find_eq_some.mp hf⟩)

theorem mem_keys_foldl_insert {l : List K} {m : StdMap K V} {v : V} {k : K} :
    k ∈ (l.foldl (fun m c => m.insert c v) m).keys ↔ k ∈ m.keys ∨ k ∈ l := by
  induction l generalizing m with
  | nil => simp
  | cons c cs ih =>
    rw [List.foldl_cons, ih, mem_keys_insert, List.mem_cons, or_assoc]

theorem insertAux_of_gt {k : K} {v : V} {l : List (K × V)} (h : ∀ y ∈ l, y.1 < k) :
    insertAux k v l = l++[(k, v)] := by
  induction l with
  | nil => rfl
  | cons e es ih =>
    have he := h e (List.mem_cons_self _ _)
    simp only [insertAux, not_lt_of_gt he, ne_of_gt he, if_false, List.cons_append,
      ih fun y hy => h y (List.mem_cons_of_mem _ hy)]

theorem assignAux_of_gt {k : K} {v : V} {l : List (K × V)} (h : ∀ y ∈ l, y.1 < k) :
    assignAux k v l = l++[(k, v)] := by
  induction l with
  | nil => rfl
  | cons e es ih =>
    have he := h e (List.mem_cons_self _ _)
    simp only [assignAux, not_lt_of_gt he, ne_of_gt he, if_false, List.cons_append,
      ih fun y hy => h y (List.mem_cons_of_mem _ hy)]

theorem foldl_insert_of_sorted {l : List (K × V)} (hl : l.Pairwise (fun a b => a.1 < b.1))
    {m : StdMap K V} (hm : ∀ x ∈ m.entries, ∀ y ∈ l, x.1 < y.1) :
    (l.foldl (fun m e => m.insert e.1 e.2) m).entries = m.entries++l := by
  induction l generalizing m with
  | nil => simp
  | cons e es ih =>
    rw [List.pairwise_cons] at hl
    have hins : (m.insert e.1 e.2).entries = m.entries++[e] :=
      insertAux_of_gt fun y hy => hm y hy e (List.mem_cons_self _ _)
    rw [List.foldl_cons, ih hl.2, hins, List.append_assoc, List.singleton_append]
    intro x hx y hy
    rw [hins] at hx
    rcases List.mem_append.mp hx with hx | hx
    · exact hm x hx y (List.mem_cons_of_mem _ hy)
    · rw [List.mem_singleton.mp hx]
      exact hl.1 y hy

theorem mem_foldl_insert {l : List (K × V)} (hl : (l.map Prod.fst).Nodup) {m : StdMap K V}
    (hm : ∀ x ∈ l, m.find x.1 = none) {x : K × V} :
    x ∈ (l.foldl (fun m e => m.insert e.1 e.2) m).entries ↔ x ∈ m.entries ∨ x ∈ l := by
  induction l generalizing m with
  | nil => simp
  | cons e es ih =>
    rw [List.map_cons, List.nodup_cons] at hl
    have hfresh : ∀ y ∈ es, (m.insert e.1 e.2).find y.1 = none := by
      intro y hy
      refine find_eq_none.mpr fun w hw => ?_
      rcases mem_insert.mp hw with hw | ⟨hw, -⟩
      · exact (find_eq_none.mp (hm y (List.mem_cons_of_mem _ hy)) w) hw
      · have h1 : y.1 = e.1 := (Prod.mk.inj hw).1
        exact hl.1 (h1 ▸ List.mem_map_of_mem Prod.fst hy)
    rw [List.foldl_cons, ih hl.2 hfresh, mem_insert, hm e (List.mem_cons_self _ _), List.mem_cons]
    simp only [and_true, or_assoc]

end StdMap

end Kicad
