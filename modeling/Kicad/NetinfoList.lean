import Kicad.StdMap

/-!
# The net list of a board

`NETINFO_LIST` owns the nets of a board and indexes them twice, by net code
in `m_netCodes` and by net name in `m_netNames`. Both indices hold addresses
of `NETINFO_ITEM` objects, so the model keeps the objects in `items`, keyed by
address, and `new` takes the next unused one. Only the item fields these
operations read or write are modelled. `UnescapeString` is not part of the
excerpt and is a parameter of `RebuildDisplayNetnames`.
-/

set_option autoImplicit false

namespace Kicad

abbrev Ptr := ℕ

structure NetinfoItem where
  netCode : ℤ
  netname : String
  shortNetname : String
  displayNetname : String
  isCurrent : Bool
  deriving DecidableEq, Repr, Inhabited

/-- A `NETINFO_LIST` with the objects its indices point to; `next` is the
address the next `new NETINFO_ITEM` receives. -/
structure NetinfoList where
  items : Ptr → NetinfoItem
  next : Ptr
  netCodes : StdMap ℤ Ptr
  netNames : StdMap String Ptr
  newNetCode : ℤ
  displayNetnamesDirty : Bool

structure BoardCommit where
  removed : List Ptr
  deriving DecidableEq, Repr

namespace NetinfoList

def setItem (s : NetinfoList) (p : Ptr) (it : NetinfoItem) : NetinfoList :=
  { s with items := fun q => if q = p then it else s.items q }

theorem setItem_self (s : NetinfoList) (p : Ptr) : s.setItem p (s.items p) = s := by
  cases s
  simp only [setItem, NetinfoList.mk.injEq, and_true]
  funext q
  split <;> simp_all

theorem setItem_setItem (s : NetinfoList) (p : Ptr) (it it' : NetinfoItem) :
    (s.setItem p it).setItem p it' = s.setItem p it' := by
  simp only [setItem]
  congr 1
  funext q
  split <;> rfl

def alloc (it : NetinfoItem) (s : NetinfoList) : NetinfoList × Ptr :=
  ({ s.setItem s.next it with next := s.next+1 }, s.next)

theorem alloc_items_of_ne (it : NetinfoItem) {s : NetinfoList} {q : Ptr} (hq : q ≠ s.next) :
    (s.alloc it).1.items q = s.items q :=
  if_neg hq

def getNetItemByCode (s : NetinfoList) (aNetCode : ℤ) : Option Ptr := s.netCodes.find aNetCode

def getNetItemByName (s : NetinfoList) (aNetName : String) : Option Ptr :=
  s.netNames.find aNetName

def clear (s : NetinfoList) : NetinfoList :=
  { s with netNames := .empty, netCodes := .empty, newNetCode := 0 }

def nextFreeNetCode (netCodes : StdMap ℤ Ptr) : ℕ → ℤ → ℤ
  | 0, c => c
  | fuel+1, c => if netCodes.count c ≠ 0 then nextFreeNetCode netCodes fuel (c+1) else c

/-- `getFreeNetCode`, as the code it returns, which is also the new `m_newNetCode`.
The first pass clamps a negative hint to zero and every pass steps the hint,
so the codes tried are `max h 0 + 1, max h 0 + 2, ...`; at most `size` of
them are used, so `size + 1` passes always end on a free one. -/
def getFreeNetCode (s : NetinfoList) : ℤ :=
  nextFreeNetCode s.netCodes (s.netCodes.size+1) (max s.newNetCode 0+1)

theorem nextFreeNetCode_spec (m : StdMap ℤ Ptr) (fuel : ℕ) (c : ℤ) :
    c ≤ nextFreeNetCode m fuel c ∧
      (∀ c', c ≤ c' → c' < nextFreeNetCode m fuel c → c' ∈ m.keys) ∧
      (nextFreeNetCode m fuel c ∉ m.keys ∨ nextFreeNetCode m fuel c = c+fuel) := by
  induction fuel generalizing c with
  | zero => exact ⟨le_rfl, fun c' h₁ h₂ => absurd h₂ (not_lt.mpr h₁), .inr (by simp [nextFreeNetCode])⟩
  | succ n ih =>
    simp only [nextFreeNetCode]
    split_ifs with h
    · obtain ⟨h₁, h₂, h₃⟩ := ih (c+1)
      have hc : c ∈ m.keys := not_not.mp (mt StdMap.count_eq_zero.mpr h)
      refine ⟨by omega, fun c' h₁' h₂' => ?_, ?_⟩
      · rcases eq_or_lt_of_le h₁' with rfl | h₁'
        · exact hc
        · exact h₂ c' (by omega) h₂'
      · rcases h₃ with h₃ | h₃
        · exact .inl h₃
        · exact .inr (by rw [h₃]; omega)
    · exact ⟨le_rfl, fun c' h₁ h₂ => absurd h₂ (not_lt.mpr h₁),
        .inl (StdMap.count_eq_zero.mp (not_not.mp h))⟩

theorem nextFreeNetCode_of_free (m : StdMap ℤ Ptr) {fuel fuel' : ℕ} {c : ℤ}
    (h : nextFreeNetCode m fuel c ∉ m.keys) (hf : fuel ≤ fuel') :
    nextFreeNetCode m fuel' c = nextFreeNetCode m fuel c := by
  induction fuel generalizing c fuel' with
  | zero =>
    have hc : m.count c = 0 := StdMap.count_eq_zero.mpr h
    cases fuel' <;> simp [nextFreeNetCode, hc]
  | succ n ih =>
    obtain ⟨n', rfl⟩ : ∃ n', fuel' = n'+1 := ⟨fuel'-1, by omega⟩
    simp only [nextFreeNetCode] at h ⊢
    split_ifs at h ⊢
    · exact ih h (by omega)
    · rfl

theorem getFreeNetCode_spec (s : NetinfoList) :
    max s.newNetCode 0 < s.getFreeNetCode ∧ s.getFreeNetCode ∉ s.netCodes.keys ∧
      ∀ c, max s.newNetCode 0 < c → c < s.getFreeNetCode → c ∈ s.netCodes.keys := by
  obtain ⟨h₁, h₂, h₃⟩ := nextFreeNetCode_spec s.netCodes (s.netCodes.size+1) (max s.newNetCode 0+1)
  refine ⟨by unfold getFreeNetCode; omega, ?_, fun c hc hc' => h₂ c (by omega) hc'⟩
  rcases h₃ with h₃ | h₃
  · exact h₃
  · have := StdMap.interval_le_size (n := s.netCodes.size+1) fun c hc hc' =>
      h₂ c hc (by rw [h₃]; push_cast; exact hc')
    omega

def INT_MAX : ℤ := 2147483647

def INT_MIN : ℤ := -2147483648

/-- `++m_newNetCode` on the C++ `int`: past `INT_MAX` the increment overflows,
which is undefined, and in practice wraps to `INT_MIN`. -/
def incrementInt (c : ℤ) : ℤ := if c = INT_MAX then INT_MIN else c+1

def nextFreeNetCodeInt (netCodes : StdMap ℤ Ptr) : ℕ → ℤ → ℤ
  | 0, c => c
  | fuel+1, c =>
    if netCodes.count c ≠ 0 then nextFreeNetCodeInt netCodes fuel (incrementInt (max c 0)) else c

/-- `getFreeNetCode` as the C++ `int` runs it. `getFreeNetCode` is the same loop
on unbounded integers, and the two agree while the scan stays at or below
`INT_MAX` (`getFreeNetCodeInt_eq`). -/
def getFreeNetCodeInt (s : NetinfoList) : ℤ :=
  nextFreeNetCodeInt s.netCodes (s.netCodes.size+1) (incrementInt (max s.newNetCode 0))

theorem nextFreeNetCodeInt_eq (m : StdMap ℤ Ptr) (fuel : ℕ) {c : ℤ} (hc : 0 < c)
    (h : nextFreeNetCode m fuel c ≤ INT_MAX) : nextFreeNetCodeInt m fuel c = nextFreeNetCode m fuel c := by
  induction fuel generalizing c with
  | zero => rfl
  | succ n ih =>
    simp only [nextFreeNetCode, nextFreeNetCodeInt] at h ⊢
    split_ifs at h ⊢
    · have hlt := (nextFreeNetCode_spec m n (c+1)).1
      rw [max_eq_left hc.le, incrementInt, if_neg (by rw [INT_MAX] at h ⊢; omega)]
      exact ih (by omega) h
    · rfl

theorem getFreeNetCodeInt_eq (s : NetinfoList) (h : s.getFreeNetCode ≤ INT_MAX) :
    s.getFreeNetCodeInt = s.getFreeNetCode := by
  have hlt := (getFreeNetCode_spec s).1
  rw [getFreeNetCodeInt, incrementInt, if_neg (by rw [INT_MAX] at h ⊢; omega)]
  exact nextFreeNetCodeInt_eq _ _ (by omega) h

def assignNetCode (s : NetinfoList) (p : Ptr) : ℤ × ℤ :=
  if (s.items p).netCode ≠ s.netCodes.size ∨ (s.items p).netCode < 0 then
    (s.getFreeNetCode, s.getFreeNetCode)
  else (s.newNetCode, (s.items p).netCode)

theorem assignNetCode_cases (s : NetinfoList) (p : Ptr) :
    (s.assignNetCode p = (s.newNetCode, (s.items p).netCode) ∧
        (s.items p).netCode = s.netCodes.size) ∨
      s.assignNetCode p = (s.getFreeNetCode, s.getFreeNetCode) := by
  unfold assignNetCode
  split_ifs with h
  · exact .inr rfl
  · exact .inl ⟨rfl, by push_neg at h; exact h.1⟩

def appendNet (p : Ptr) (s : NetinfoList) : NetinfoList :=
  match s.getNetItemByName (s.items p).netname with
  | some sameName => s.setItem p { s.items p with netCode := (s.items sameName).netCode }
  | none =>
    { s.setItem p { s.items p with netCode := (s.assignNetCode p).2 } with
      newNetCode := (s.assignNetCode p).1
      netNames := s.netNames.insert (s.items p).netname p
      netCodes := s.netCodes.insert (s.assignNetCode p).2 p
      displayNetnamesDirty := true }

theorem appendNet_of_merge {s : NetinfoList} {p q : Ptr}
    (h : s.getNetItemByName (s.items p).netname = some q) :
    s.appendNet p = s.setItem p { s.items p with netCode := (s.items q).netCode } := by
  simp [appendNet, h]

theorem appendNet_of_new {s : NetinfoList} {p : Ptr}
    (h : s.getNetItemByName (s.items p).netname = none) :
    s.appendNet p = { s.setItem p { s.items p with netCode := (s.assignNetCode p).2 } with
      newNetCode := (s.assignNetCode p).1
      netNames := s.netNames.insert (s.items p).netname p
      netCodes := s.netCodes.insert (s.assignNetCode p).2 p
      displayNetnamesDirty := true } := by
  simp [appendNet, h]

theorem appendNet_next (s : NetinfoList) (p : Ptr) : (s.appendNet p).next = s.next := by
  unfold appendNet
  split <;> rfl

/-- The two `assert`s of `AppendNet`: the name and the code it is about to
insert are not yet used. The merge branch returns before them. -/
def appendNetAssertsHold (p : Ptr) (s : NetinfoList) : Bool :=
  match s.getNetItemByName (s.items p).netname with
  | some _ => true
  | none => (s.getNetItemByCode (s.assignNetCode p).2).isNone

/-- `RemoveNet( aNet )`: each index loses the first entry holding `aNet`; the
hint and the display cache react only to a hit in `m_netCodes`. -/
def removeNet (p : Ptr) (s : NetinfoList) : NetinfoList :=
  if s.netCodes.holds p then
    { s with
      netCodes := s.netCodes.eraseValue p
      netNames := s.netNames.eraseValue p
      newNetCode := min s.newNetCode ((s.items p).netCode-1)
      displayNetnamesDirty := true }
  else { s with netCodes := s.netCodes.eraseValue p, netNames := s.netNames.eraseValue p }

theorem removeNet_netCodes (p : Ptr) (s : NetinfoList) : (s.removeNet p).netCodes = s.netCodes.eraseValue p := by
  unfold removeNet
  split <;> rfl

theorem removeNet_netNames (p : Ptr) (s : NetinfoList) : (s.removeNet p).netNames = s.netNames.eraseValue p := by
  unfold removeNet
  split <;> rfl

theorem removeNet_items (p : Ptr) (s : NetinfoList) : (s.removeNet p).items = s.items := by
  unfold removeNet
  split <;> rfl

theorem removeNet_of_not_holds {p : Ptr} {s : NetinfoList} (hc : s.netCodes.holds p = false)
    (hn : s.netNames.holds p = false) : s.removeNet p = s := by
  rw [removeNet, if_neg (by rw [hc]; decide), StdMap.eraseValue_of_not_holds hc,
    StdMap.eraseValue_of_not_holds hn]

def removeUnusedStep (acc : NetinfoList × Option BoardCommit) (e : ℤ × Ptr) :
    NetinfoList × Option BoardCommit :=
  if (acc.1.items e.2).isCurrent then
    ({ acc.1 with
      netNames := acc.1.netNames.insert (acc.1.items e.2).netname e.2
      netCodes := acc.1.netCodes.insert e.1 e.2 }, acc.2)
  else ({ acc.1 with displayNetnamesDirty := true }, acc.2.map fun c => ⟨c.removed++[e.2]⟩)

def removeUnusedNets (aCommit : Option BoardCommit) (s : NetinfoList) :
    NetinfoList × Option BoardCommit :=
  s.netCodes.entries.foldl removeUnusedStep ({ s with netCodes := .empty, netNames := .empty }, aCommit)

theorem foldl_removeUnusedStep (l : List (ℤ × Ptr)) (acc : NetinfoList × Option BoardCommit) :
    (l.foldl removeUnusedStep acc).1 = { acc.1 with
      netCodes := (l.filter fun e => (acc.1.items e.2).isCurrent).foldl
        (fun m e => m.insert e.1 e.2) acc.1.netCodes
      netNames := ((l.filter fun e => (acc.1.items e.2).isCurrent).map
        fun e => ((acc.1.items e.2).netname, e.2)).foldl (fun m e => m.insert e.1 e.2) acc.1.netNames
      displayNetnamesDirty := acc.1.displayNetnamesDirty || l.any fun e => !(acc.1.items e.2).isCurrent } ∧
    (l.foldl removeUnusedStep acc).2 =
      acc.2.map fun c => ⟨c.removed++((l.filter fun e => !(acc.1.items e.2).isCurrent).map Prod.snd)⟩ := by
  induction l generalizing acc with
  | nil => rcases acc with ⟨t, _ | c⟩ <;> simp
  | cons e es ih =>
    rw [List.foldl_cons, (ih _).1, (ih _).2]
    rcases acc with ⟨t, _ | c⟩ <;> by_cases hc : (t.items e.2).isCurrent <;>
      simp [removeUnusedStep, hc, List.filter_cons]

theorem removeUnusedNets_fst (aCommit : Option BoardCommit) (s : NetinfoList) :
    (removeUnusedNets aCommit s).1 = { s with
      netCodes := ⟨s.netCodes.entries.filter fun e => (s.items e.2).isCurrent, s.netCodes.sorted.filter _⟩
      netNames := ((s.netCodes.entries.filter fun e => (s.items e.2).isCurrent).map
        fun e => ((s.items e.2).netname, e.2)).foldl (fun m e => m.insert e.1 e.2) .empty
      displayNetnamesDirty :=
        s.displayNetnamesDirty || s.netCodes.entries.any fun e => !(s.items e.2).isCurrent } := by
  rw [removeUnusedNets, (foldl_removeUnusedStep _ _).1]
  dsimp only
  congr 1
  ext1
  exact StdMap.foldl_insert_of_sorted (s.netCodes.sorted.filter _) (by simp [StdMap.empty])

theorem removeUnusedNets_snd (aCommit : Option BoardCommit) (s : NetinfoList) :
    (removeUnusedNets aCommit s).2 = aCommit.map fun c =>
      ⟨c.removed++(s.netCodes.entries.filter fun e => !(s.items e.2).isCurrent).map Prod.snd⟩ :=
  (foldl_removeUnusedStep _ _).2

theorem mem_removeUnusedNets_netNames (aCommit : Option BoardCommit) {s : NetinfoList}
    (hd : ((s.netCodes.entries.filter fun e => (s.items e.2).isCurrent).map
      fun e => (s.items e.2).netname).Nodup) {x : String × Ptr} :
    x ∈ (removeUnusedNets aCommit s).1.netNames.entries ↔
      ∃ k, (k, x.2) ∈ s.netCodes.entries ∧ (s.items x.2).isCurrent ∧ x.1 = (s.items x.2).netname := by
  rw [removeUnusedNets_fst, StdMap.mem_foldl_insert (by simpa [List.map_map] using hd)
    (by simp [StdMap.empty, StdMap.find, StdMap.findAux])]
  simp only [StdMap.empty, List.not_mem_nil, false_or, List.mem_map, List.mem_filter]
  constructor
  · rintro ⟨⟨k, p⟩, ⟨hk, hc⟩, rfl⟩
    exact ⟨k, hk, hc, rfl⟩
  · rintro ⟨k, hk, hc, hx⟩
    exact ⟨(k, x.2), ⟨hk, hc⟩, Prod.ext hx.symm rfl⟩

def countShortNames (s : NetinfoList) : StdMap String ℤ :=
  s.netNames.entries.foldl
    (fun m e => m.assign (s.items e.2).shortNetname ((m.find (s.items e.2).shortNetname).getD 0+1))
    .empty

theorem countShortNames_congr {s t : NetinfoList} (hn : t.netNames = s.netNames)
    (hs : ∀ e ∈ s.netNames.entries, (t.items e.2).shortNetname = (s.items e.2).shortNetname) :
    t.countShortNames = s.countShortNames := by
  unfold countShortNames
  rw [hn]
  exact List.foldl_ext _ _ _ fun m e he => by rw [hs e he]

theorem find_countShortNames (s : NetinfoList) (n : String) :
    (s.countShortNames.find n).getD 0 =
      ((s.netNames.entries.map Prod.snd).countP fun p => (s.items p).shortNetname = n : ℕ) := by
  rw [List.countP_map]
  exact (StdMap.find_foldl_increment (fun e : String × Ptr => (s.items e.2).shortNetname) _ _ n).trans
    (by simp [StdMap.empty, StdMap.find, StdMap.findAux]; rfl)

section Display
variable (unescapeString : String → String)

def displayNetname (shortNames : StdMap String ℤ) (net : NetinfoItem) : String :=
  if (shortNames.find net.shortNetname).getD 0 = 1 then unescapeString net.shortNetname
  else unescapeString net.netname

def rebuildDisplayNetnames (s : NetinfoList) : NetinfoList :=
  { s with
    items := s.netNames.entries.foldl
      (fun items e q => if q = e.2 then
          { items e.2 with displayNetname := displayNetname unescapeString s.countShortNames (items e.2) }
        else items q)
      s.items
    displayNetnamesDirty := false }

theorem foldl_setDisplay (f : NetinfoItem → String) (hf : ∀ x d, f { x with displayNetname := d } = f x)
    (l : List (String × Ptr)) (items : Ptr → NetinfoItem) (q : Ptr) :
    l.foldl (fun items e q => if q = e.2 then { items e.2 with displayNetname := f (items e.2) }
      else items q) items q =
      if q ∈ l.map Prod.snd then { items q with displayNetname := f (items q) } else items q := by
  induction l generalizing items with
  | nil => simp
  | cons e es ih =>
    rw [List.foldl_cons, ih]
    by_cases hq : q = e.2
    · subst hq; simp [hf]
    · by_cases hm : q ∈ es.map Prod.snd <;> simp [hq, hm]

theorem rebuildDisplayNetnames_items_eq (s : NetinfoList) (q : Ptr) :
    (s.rebuildDisplayNetnames unescapeString).items q =
      if q ∈ s.netNames.entries.map Prod.snd then
        { s.items q with displayNetname := displayNetname unescapeString s.countShortNames (s.items q) }
      else s.items q :=
  foldl_setDisplay (displayNetname unescapeString s.countShortNames) (fun _ _ => rfl) _ _ q

theorem rebuildDisplayNetnames_items (s : NetinfoList) (q : Ptr) :
    ∃ d, (s.rebuildDisplayNetnames unescapeString).items q = { s.items q with displayNetname := d } := by
  rw [rebuildDisplayNetnames_items_eq]
  split_ifs
  · exact ⟨_, rfl⟩
  · exact ⟨(s.items q).displayNetname, rfl⟩

theorem rebuildDisplayNetnames_keeps (s : NetinfoList) (q : Ptr) :
    ((s.rebuildDisplayNetnames unescapeString).items q).netCode = (s.items q).netCode ∧
      ((s.rebuildDisplayNetnames unescapeString).items q).netname = (s.items q).netname := by
  obtain ⟨d, hd⟩ := rebuildDisplayNetnames_items unescapeString s q
  rw [hd]
  exact ⟨rfl, rfl⟩

end Display

def unconnectedItem : NetinfoItem :=
  { netCode := 0, netname := "", shortNetname := "", displayNetname := "", isCurrent := true }

/-- `NETINFO_LIST( aParent )`: `m_newNetCode` is 0 and the unconnected net is
appended to the empty indices; it lands at address 0 of an empty memory. -/
def create : NetinfoList :=
  let s := (⟨fun _ => default, 0, .empty, .empty, 0, true⟩ : NetinfoList).alloc unconnectedItem
  s.1.appendNet s.2

end NetinfoList

end Kicad
