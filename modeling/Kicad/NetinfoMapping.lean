import Kicad.StdMap

/-!
# Export-time renumbering of nets

`NETINFO_MAPPING::Update` collects the net codes a board uses into a
`std::set<int>`, starting from the unconnected net 0, and numbers them
`0, 1, ...` in ascending order; `Translate` looks a code up and passes an
unknown one through. A zone, track or pad whose code is below 0, such as
`NETINFO_LIST::ORPHANED`, sorts before 0 and takes its slot.
-/

set_option autoImplicit false

namespace Kicad

inductive Drawing
  | pcbShape (netCode : ℤ)
  | other
  deriving DecidableEq, Repr

structure Board where
  zones : List ℤ
  tracks : List ℤ
  drawings : List Drawing
  footprints : List (List ℤ)
  deriving DecidableEq, Repr

structure NetinfoMapping where
  board : Board
  netMapping : StdMap ℤ ℤ

namespace NetinfoMapping

def UNCONNECTED : ℤ := 0

def ORPHANED : ℤ := -1

def translate (m : NetinfoMapping) (aNetCode : ℤ) : ℤ := (m.netMapping.find aNetCode).getD aNetCode

def insertDrawing (nets : StdMap ℤ Unit) : Drawing → StdMap ℤ Unit
  | .pcbShape c => if c > 0 then nets.insert c () else nets
  | .other => nets

def usedNets (b : Board) : StdMap ℤ Unit :=
  let nets := (StdMap.empty : StdMap ℤ Unit).insert 0 ()
  let nets := b.zones.foldl (fun n c => n.insert c ()) nets
  let nets := b.tracks.foldl (fun n c => n.insert c ()) nets
  let nets := b.drawings.foldl insertDrawing nets
  b.footprints.foldl (fun n pads => pads.foldl (fun n c => n.insert c ()) n) nets

def numberNets (acc : StdMap ℤ ℤ × ℤ) (e : ℤ × Unit) : StdMap ℤ ℤ × ℤ :=
  (acc.1.assign e.1 acc.2, acc.2+1)

theorem mem_keys_insertDrawing {n : StdMap ℤ Unit} {d : Drawing} {k : ℤ} :
    k ∈ (insertDrawing n d).keys ↔ k ∈ n.keys ∨ d = .pcbShape k ∧ 0 < k := by
  cases d with
  | pcbShape c =>
    simp only [insertDrawing]
    split_ifs with hc
    · rw [StdMap.mem_keys_insert, Drawing.pcbShape.injEq]
      exact or_congr_right ⟨fun h => ⟨h.symm, h ▸ hc⟩, fun h => h.1.symm⟩
    · rw [Drawing.pcbShape.injEq]
      exact (or_iff_left fun (h : c = k ∧ 0 < k) => hc (h.1 ▸ h.2)).symm
  | other => simp [insertDrawing]

theorem mem_keys_foldl_insertDrawing {ds : List Drawing} {n : StdMap ℤ Unit} {k : ℤ} :
    k ∈ (ds.foldl insertDrawing n).keys ↔ k ∈ n.keys ∨ Drawing.pcbShape k ∈ ds ∧ 0 < k := by
  induction ds generalizing n with
  | nil => simp
  | cons d ds ih =>
    rw [List.foldl_cons, ih, mem_keys_insertDrawing, List.mem_cons, or_and_right, or_assoc, @eq_comm _ d]

theorem mem_keys_foldl_pads {fs : List (List ℤ)} {n : StdMap ℤ Unit} {k : ℤ} :
    k ∈ (fs.foldl (fun n pads => pads.foldl (fun n c => n.insert c ()) n) n).keys ↔
      k ∈ n.keys ∨ ∃ pads ∈ fs, k ∈ pads := by
  induction fs generalizing n with
  | nil => simp
  | cons pads fs ih =>
    rw [List.foldl_cons, ih, StdMap.mem_keys_foldl_insert]
    simp only [List.mem_cons, exists_eq_or_imp, or_assoc]

theorem mem_usedNets {b : Board} {k : ℤ} :
    k ∈ (usedNets b).keys ↔ k = 0 ∨ k ∈ b.zones ∨ k ∈ b.tracks ∨
      (Drawing.pcbShape k ∈ b.drawings ∧ 0 < k) ∨ ∃ pads ∈ b.footprints, k ∈ pads := by
  simp only [usedNets, mem_keys_foldl_pads, mem_keys_foldl_insertDrawing, StdMap.mem_keys_foldl_insert,
    StdMap.mem_keys_insert]
  simp [StdMap.empty, StdMap.keys, or_assoc]

def number (n : ℤ) : List (ℤ × Unit) → List (ℤ × ℤ)
  | [] => []
  | e::es => (e.1, n)::number (n+1) es

theorem map_fst_number (n : ℤ) (l : List (ℤ × Unit)) : (number n l).map Prod.fst = l.map Prod.fst := by
  induction l generalizing n with
  | nil => rfl
  | cons e es ih => simp [number, ih]

theorem foldl_numberNets {l : List (ℤ × Unit)} (hl : l.Pairwise (fun a b => a.1 < b.1))
    {m : StdMap ℤ ℤ} (hm : ∀ x ∈ m.entries, ∀ y ∈ l, x.1 < y.1) (n : ℤ) :
    (l.foldl numberNets (m, n)).1.entries = m.entries++number n l := by
  induction l generalizing m n with
  | nil => simp [number]
  | cons e es ih =>
    rw [List.pairwise_cons] at hl
    have hassign : (m.assign e.1 n).entries = m.entries++[(e.1, n)] :=
      StdMap.assignAux_of_gt fun y hy => hm y hy e (List.mem_cons_self _ _)
    rw [List.foldl_cons, numberNets, ih hl.2 _ (n+1), hassign, number, List.append_assoc,
      List.singleton_append]
    intro x hx y hy
    rw [hassign] at hx
    rcases List.mem_append.mp hx with hx | hx
    · exact hm x hx y (List.mem_cons_of_mem _ hy)
    · rw [List.mem_singleton.mp hx]
      exact hl.1 y hy

theorem le_of_mem_number {n : ℤ} {l : List (ℤ × Unit)} {x : ℤ × ℤ} (hx : x ∈ number n l) :
    n ≤ x.2 := by
  induction l generalizing n with
  | nil => simp [number] at hx
  | cons e es ih =>
    rcases List.mem_cons.mp hx with rfl | hx
    · exact le_rfl
    · have := ih hx
      omega

theorem length_number (n : ℤ) (l : List (ℤ × Unit)) : (number n l).length = l.length := by
  simpa using congrArg List.length (map_fst_number n l)

theorem fst_mem_of_mem_number {n : ℤ} {l : List (ℤ × Unit)} {x : ℤ × ℤ} (hx : x ∈ number n l) :
    x.1 ∈ l.map Prod.fst := by
  rw [← map_fst_number n]
  exact List.mem_map_of_mem _ hx

theorem number_lt_of_lt {l : List (ℤ × Unit)} (hl : l.Pairwise (fun a b => a.1 < b.1)) {n : ℤ}
    {x y : ℤ × ℤ} (hx : x ∈ number n l) (hy : y ∈ number n l) (hxy : x.1 < y.1) : x.2 < y.2 := by
  induction l generalizing n with
  | nil => simp [number] at hx
  | cons e es ih =>
    rw [List.pairwise_cons] at hl
    rcases List.mem_cons.mp hx with rfl | hx <;> rcases List.mem_cons.mp hy with rfl | hy
    · exact absurd hxy (lt_irrefl _)
    · have := le_of_mem_number hy
      dsimp only at this ⊢
      omega
    · obtain ⟨e', he', hfst⟩ := List.mem_map.mp (fst_mem_of_mem_number hx)
      have := hl.1 e' he'
      dsimp only at hxy
      omega
    · exact ih hl.2 hx hy

theorem exists_mem_number_iff {n i : ℤ} {l : List (ℤ × Unit)} :
    (∃ k, (k, i) ∈ number n l) ↔ n ≤ i ∧ i < n+l.length := by
  induction l generalizing n with
  | nil => simp [number]
  | cons e es ih =>
    simp only [number, List.mem_cons, Prod.mk.injEq, exists_or, exists_eq_left, ih, List.length_cons]
    omega

theorem number_self {l : List (ℤ × Unit)} (hl : l.Pairwise (fun a b => a.1 < b.1)) {a m : ℤ}
    (hkeys : ∀ k, k ∈ l.map Prod.fst ↔ a ≤ k ∧ k < a+m) : ∀ x ∈ number a l, x.2 = x.1 := by
  induction l generalizing a m with
  | nil => simp [number]
  | cons e es ih =>
    rw [List.pairwise_cons] at hl
    have he₁ := (hkeys e.1).mp (List.mem_cons_self _ _)
    have he : e.1 = a := by
      rcases List.mem_cons.mp ((hkeys a).mpr ⟨le_rfl, by omega⟩) with h | h
      · exact h.symm
      · obtain ⟨e', he', rfl⟩ := List.mem_map.mp h
        have := hl.1 e' he'
        omega
    have hrest : ∀ k, k ∈ es.map Prod.fst ↔ a+1 ≤ k ∧ k < a+1+(m-1) := fun k => by
      constructor
      · intro hk
        obtain ⟨e', he', rfl⟩ := List.mem_map.mp hk
        have h₁ := (hkeys e'.1).mp (List.mem_cons_of_mem _ hk)
        have := hl.1 e' he'
        omega
      · intro hk
        rcases List.mem_cons.mp ((hkeys k).mpr ⟨by omega, by omega⟩) with h | h
        · omega
        · exact h
    intro x hx
    rcases List.mem_cons.mp hx with rfl | hx
    · exact he.symm
    · exact ih hl.2 hrest x hx

def update (m : NetinfoMapping) : NetinfoMapping :=
  { m with netMapping := ((usedNets m.board).entries.foldl numberNets (.empty, 0)).1 }

theorem update_netMapping (m : NetinfoMapping) :
    m.update.netMapping.entries = number 0 (usedNets m.board).entries := by
  simpa [StdMap.empty] using
    foldl_numberNets (usedNets m.board).sorted (m := .empty) (by simp [StdMap.empty]) 0

/-- The codes `Update` collects, in the words of its loops: 0, the codes of all
zones, tracks and footprint pads, and the positive codes of `PCB_SHAPE` drawings. -/
def UsedNet (b : Board) (k : ℤ) : Prop :=
  k = 0 ∨ k ∈ b.zones ∨ k ∈ b.tracks ∨ (Drawing.pcbShape k ∈ b.drawings ∧ 0 < k) ∨
    ∃ pads ∈ b.footprints, k ∈ pads

instance (b : Board) : DecidablePred (UsedNet b) := fun _ => inferInstanceAs (Decidable (_ ∨ _))

theorem usedNets_eq_of_iff {b b' : Board} (h : ∀ k, UsedNet b k ↔ UsedNet b' k) :
    usedNets b' = usedNets b :=
  StdMap.eq_of_mem_iff fun ⟨k, ()⟩ => by
    have key : ∀ n : StdMap ℤ Unit, (k, ()) ∈ n.entries ↔ k ∈ n.keys := fun n =>
      ⟨fun hk => StdMap.mem_keys.mpr ⟨(), hk⟩, fun hk => let ⟨(), hv⟩ := StdMap.mem_keys.mp hk; hv⟩
    rw [key, key, mem_usedNets, mem_usedNets]
    exact (h k).symm

theorem mem_keys_update {m : NetinfoMapping} {k : ℤ} : k ∈ m.update.netMapping.keys ↔ UsedNet m.board k := by
  rw [StdMap.keys, update_netMapping, map_fst_number]
  exact mem_usedNets

theorem translate_mem {m : NetinfoMapping} {c : ℤ} (hc : UsedNet m.board c) :
    (c, m.update.translate c) ∈ m.update.netMapping.entries := by
  obtain ⟨v, hv⟩ := StdMap.mem_keys.mp (mem_keys_update.mpr hc)
  rwa [translate, StdMap.find_eq_some.mpr hv, Option.getD_some]

theorem translate_of_not_used {m : NetinfoMapping} {c : ℤ} (hc : ¬UsedNet m.board c) :
    m.update.translate c = c := by
  rw [translate, StdMap.find_eq_none.mpr fun v hv => hc (mem_keys_update.mp (StdMap.mem_keys.mpr ⟨v, hv⟩)),
    Option.getD_none]

theorem exists_mem_update_iff {m : NetinfoMapping} {i : ℤ} :
    (∃ k, (k, i) ∈ m.update.netMapping.entries) ↔ 0 ≤ i ∧ i < m.update.netMapping.size := by
  rw [update_netMapping, StdMap.size, update_netMapping, length_number, exists_mem_number_iff, Int.zero_add]

/-- `Update` numbers the used codes `0, ..., |S| - 1` in ascending order, whatever
the order and multiplicity of the board's items, and `Translate` reads that
numbering on the used codes and passes every other code through. The keys are
the used codes, each once, so the map's size is `|S|`. -/
theorem update_numbers_used_nets (m : NetinfoMapping) :
    (∀ k, k ∈ m.update.netMapping.keys ↔ UsedNet m.board k) ∧ m.update.netMapping.keys.Nodup ∧
    (∀ x ∈ m.update.netMapping.entries, ∀ y ∈ m.update.netMapping.entries, x.1 < y.1 → x.2 < y.2) ∧
    (∀ i, (∃ k, (k, i) ∈ m.update.netMapping.entries) ↔ 0 ≤ i ∧ i < m.update.netMapping.size) ∧
    (∀ m' : NetinfoMapping, (∀ k, UsedNet m.board k ↔ UsedNet m'.board k) →
      m'.update.netMapping = m.update.netMapping) ∧
    (∀ c, UsedNet m.board c → (c, m.update.translate c) ∈ m.update.netMapping.entries) ∧
    (∀ c, ¬UsedNet m.board c → m.update.translate c = c) := by
  refine ⟨fun k => mem_keys_update, (List.pairwise_map.mpr m.update.netMapping.sorted).imp ne_of_lt,
    fun x hx y hy => ?_, fun i => exists_mem_update_iff, fun m' h => ?_, fun c hc => translate_mem hc,
    fun c hc => translate_of_not_used hc⟩
  · rw [update_netMapping] at hx hy
    exact number_lt_of_lt (usedNets m.board).sorted hx hy
  · exact StdMap.ext (by rw [update_netMapping, update_netMapping, usedNets_eq_of_iff h])

/-- `Update` leaves every code where it is exactly when the used codes are already
`0, ..., n - 1`: a board in renumbered form is renumbered to itself, and on any
other board some used code moves. -/
theorem update_translate_eq_self_iff (m : NetinfoMapping) :
    (∀ c, m.update.translate c = c) ↔ ∃ n : ℤ, ∀ k, UsedNet m.board k ↔ 0 ≤ k ∧ k < n := by
  constructor
  · intro hid
    refine ⟨m.update.netMapping.size, fun k =>
      ⟨fun hk => exists_mem_update_iff.mp ⟨k, by simpa only [hid k] using translate_mem hk⟩, fun hk => ?_⟩⟩
    obtain ⟨k', hk'⟩ := exists_mem_update_iff.mpr hk
    have hused : UsedNet m.board k' := mem_keys_update.mp (StdMap.mem_keys.mpr ⟨k, hk'⟩)
    have hval : m.update.translate k' = k := StdMap.key_unique (translate_mem hused) hk'
    rwa [← (hid k').symm.trans hval]
  · rintro ⟨n, hn⟩ c
    by_cases hc : UsedNet m.board c
    · have hmem := translate_mem hc
      rw [update_netMapping] at hmem
      exact number_self (usedNets m.board).sorted (a := 0) (m := n)
        (fun k => (mem_usedNets.trans (hn k)).trans (by rw [Int.zero_add])) _ hmem
    · exact translate_of_not_used hc

def orphanedTrackBoard : Board := ⟨[], [ORPHANED], [], []⟩

theorem update_orphaned_track :
    (update ⟨orphanedTrackBoard, .empty⟩).translate UNCONNECTED = 1 ∧
      (update ⟨orphanedTrackBoard, .empty⟩).translate ORPHANED = 0 := by
  decide

def Carries (b : Board) (c : ℤ) : Prop :=
  c ∈ b.zones ∨ c ∈ b.tracks ∨ Drawing.pcbShape c ∈ b.drawings ∨ ∃ pads ∈ b.footprints, c ∈ pads

theorem usedNets_nonneg {b : Board} (hz : ∀ c ∈ b.zones, 0 ≤ c) (ht : ∀ c ∈ b.tracks, 0 ≤ c)
    (hp : ∀ pads ∈ b.footprints, ∀ c ∈ pads, 0 ≤ c) : ∀ k ∈ (usedNets b).keys, 0 ≤ k := fun k hk => by
  rcases mem_usedNets.mp hk with rfl | h | h | h | ⟨pads, hpads, h⟩
  · exact le_rfl
  · exact hz k h
  · exact ht k h
  · exact le_of_lt h.2
  · exact hp pads hpads k h

theorem entries_eq_zero_cons {m : StdMap ℤ Unit} (h0 : (0 : ℤ) ∈ m.keys) (hnn : ∀ k ∈ m.keys, 0 ≤ k) :
    ∃ rest, m.entries = (0, ())::rest := by
  obtain ⟨w, hw⟩ := StdMap.mem_keys.mp h0
  have hsorted := m.sorted
  cases hl : m.entries with
  | nil => rw [hl] at hw; simp at hw
  | cons e rest =>
    rw [hl, List.pairwise_cons] at hsorted
    rw [hl] at hw
    have he := hnn e.1 (StdMap.mem_keys.mpr ⟨e.2, by rw [hl]; exact List.mem_cons_self _ _⟩)
    rcases List.mem_cons.mp hw with hw | hw
    · exact ⟨rest, by rw [← hw]⟩
    · have := hsorted.1 _ hw
      simp only at this
      omega

/-- When no zone, track or pad carries a negative code, `Update` keeps the
unconnected net at 0 and moves every other carried code off 0. -/
theorem update_unconnected_of_nonneg (m : NetinfoMapping) (hz : ∀ c ∈ m.board.zones, 0 ≤ c)
    (ht : ∀ c ∈ m.board.tracks, 0 ≤ c) (hp : ∀ pads ∈ m.board.footprints, ∀ c ∈ pads, 0 ≤ c) :
    m.update.translate UNCONNECTED = 0 ∧ ∀ c, Carries m.board c → c ≠ 0 → m.update.translate c ≠ 0 := by
  obtain ⟨rest, hl⟩ := entries_eq_zero_cons (mem_usedNets.mpr (.inl rfl)) (usedNets_nonneg hz ht hp)
  have hmap : m.update.netMapping.entries = (0, 0)::number 1 rest := by
    rw [update_netMapping, hl, number]
    rfl
  have h00 : ((0 : ℤ), (0 : ℤ)) ∈ m.update.netMapping.entries := hmap ▸ List.mem_cons_self _ _
  refine ⟨by simp [translate, StdMap.find_eq_some.mpr h00, UNCONNECTED], fun c hc hc0 => ?_⟩
  by_cases hk : c ∈ (usedNets m.board).keys
  · have hk' : c ∈ (m.update.netMapping.entries).map Prod.fst := by
      rw [update_netMapping, map_fst_number]
      exact hk
    obtain ⟨⟨c', i⟩, hi, rfl⟩ := List.mem_map.mp hk'
    rw [hmap] at hi
    rcases List.mem_cons.mp hi with hi | hi
    · exact absurd (Prod.mk.inj hi).1 hc0
    · have := le_of_mem_number hi
      simp only [translate, StdMap.find_eq_some.mpr (hmap ▸ List.mem_cons_of_mem _ hi), Option.getD_some]
      simp only at this
      omega
  · have : m.update.netMapping.find c = none := StdMap.find_eq_none.mpr fun v hv => hk (by
      have : c ∈ (m.update.netMapping.entries).map Prod.fst := List.mem_map_of_mem Prod.fst hv
      rwa [update_netMapping, map_fst_number] at this)
    simp [translate, this, hc0]

def zeroFiveSevenBoard : Board := ⟨[5], [7, 0], [.pcbShape 5, .other], [[0, 5]]⟩

theorem update_unconnected_zeroFiveSeven :
    ((∀ c ∈ zeroFiveSevenBoard.zones, 0 ≤ c) ∧ (∀ c ∈ zeroFiveSevenBoard.tracks, 0 ≤ c) ∧
      ∀ pads ∈ zeroFiveSevenBoard.footprints, ∀ c ∈ pads, 0 ≤ c) ∧
      (update ⟨zeroFiveSevenBoard, .empty⟩).translate UNCONNECTED = 0 :=
  ⟨by decide, (update_unconnected_of_nonneg ⟨zeroFiveSevenBoard, .empty⟩ (by decide) (by decide) (by decide)).1⟩

end NetinfoMapping

end Kicad
