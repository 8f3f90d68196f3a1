import Mathlib.Data.List.Nodup

/-!
# Template field names

`TEMPLATES` keeps the field-name templates of the project and the global ones,
and a resolved list rebuilt on demand, project templates first. A template
named like a mandatory field is refused, and adding a name already in the
target list overwrites that template in place. How many mandatory fields there
are and their canonical names are declared outside the excerpt, so they are
parameters.
-/

set_option autoImplicit false

namespace Kicad

structure TemplateFieldname where
  name : String
  visible : Bool := false
  url : Bool := false
  deriving DecidableEq, Repr

structure Templates where
  globals : List TemplateFieldname
  project : List TemplateFieldname
  resolved : List TemplateFieldname
  resolvedDirty : Bool

/-- `TEMPLATE_FIELDNAME::GetDefaultFieldName( aFieldNdx, false )`, the canonical
name of field `aFieldNdx`, with the mandatory fields numbered in the order of
its `switch`. -/
def getDefaultFieldName (aFieldNdx : ℕ) : String :=
  match aFieldNdx with
  | 0 => "Reference"
  | 1 => "Value"
  | 2 => "Footprint"
  | 3 => "Datasheet"
  | 4 => "Description"
  | n => "Field"++toString n

namespace Templates

def create (resolvedDirty : Bool) : Templates := ⟨[], [], [], resolvedDirty⟩

def addToList (aFieldName : TemplateFieldname) : List TemplateFieldname → List TemplateFieldname
  | [] => [aFieldName]
  | temp::rest => if temp.name = aFieldName.name then aFieldName::rest else temp::addToList aFieldName rest

section Mandatory
variable (MANDATORY_FIELDS : ℕ) (getCanonicalFieldName : ℕ → String)

def isMandatoryName (aName : String) : Bool :=
  (List.range MANDATORY_FIELDS).any fun i => getCanonicalFieldName i = aName

/-- `AddTemplateFieldName( aFieldName, aGlobal )`. -/
def addTemplateFieldName (aFieldName : TemplateFieldname) (aGlobal : Bool) (t : Templates) :
    Templates :=
  if isMandatoryName MANDATORY_FIELDS getCanonicalFieldName aFieldName.name then t
  else if aGlobal then { t with globals := addToList aFieldName t.globals, resolvedDirty := true }
  else { t with project := addToList aFieldName t.project, resolvedDirty := true }

theorem isMandatoryName_eq_false {aName : String} :
    isMandatoryName MANDATORY_FIELDS getCanonicalFieldName aName = false ↔
      ∀ i < MANDATORY_FIELDS, getCanonicalFieldName i ≠ aName := by
  simp [isMandatoryName]

theorem addTemplateFieldName_of_free {aFieldName : TemplateFieldname} (aGlobal : Bool) (t : Templates)
    (h : ∀ i < MANDATORY_FIELDS, getCanonicalFieldName i ≠ aFieldName.name) :
    addTemplateFieldName MANDATORY_FIELDS getCanonicalFieldName aFieldName aGlobal t =
      if aGlobal then { t with globals := addToList aFieldName t.globals, resolvedDirty := true }
      else { t with project := addToList aFieldName t.project, resolvedDirty := true } := by
  rw [addTemplateFieldName, (isMandatoryName_eq_false _ _).2 h]; rfl

theorem addTemplateFieldName_of_mandatory {aFieldName : TemplateFieldname} (aGlobal : Bool) (t : Templates)
    {i : ℕ} (hi : i < MANDATORY_FIELDS) (h : getCanonicalFieldName i = aFieldName.name) :
    addTemplateFieldName MANDATORY_FIELDS getCanonicalFieldName aFieldName aGlobal t = t := by
  have hm : isMandatoryName MANDATORY_FIELDS getCanonicalFieldName aFieldName.name = true := by
    simpa [isMandatoryName] using ⟨i, hi, h⟩
  rw [addTemplateFieldName, if_pos hm]

end Mandatory

def resolveTemplates (t : Templates) : Templates :=
  { t with resolved := t.globals.foldl (fun resolved global => resolved++[global]) t.project,
           resolvedDirty := false }

def deleteAllFieldNameTemplates (aGlobal : Bool) (t : Templates) : Templates :=
  if aGlobal then { t with globals := [], resolved := t.project, resolvedDirty := false }
  else { t with project := [], resolved := t.globals, resolvedDirty := false }

def resolveIfDirty (t : Templates) : Templates := if t.resolvedDirty then t.resolveTemplates else t

def getTemplateFieldNames (t : Templates) : List TemplateFieldname × Templates :=
  (t.resolveIfDirty.resolved, t.resolveIfDirty)

def getTemplateFieldNamesOf (aGlobal : Bool) (t : Templates) : List TemplateFieldname :=
  if aGlobal then t.globals else t.project

def getFieldName (aName : String) (t : Templates) : Option TemplateFieldname × Templates :=
  (t.resolveIfDirty.resolved.find? (·.name = aName), t.resolveIfDirty)

theorem resolveTemplates_resolved (t : Templates) :
    t.resolveTemplates.resolved = t.project++t.globals := by
  suffices ∀ r, t.globals.foldl (fun resolved global => resolved++[global]) r = r++t.globals from
    this t.project
  induction t.globals with
  | nil => simp
  | cons g gs ih => intro r; rw [List.foldl_cons, ih]; simp

@[simp] theorem resolveIfDirty_project (t : Templates) : t.resolveIfDirty.project = t.project := by
  unfold resolveIfDirty; split_ifs <;> rfl

@[simp] theorem resolveIfDirty_globals (t : Templates) : t.resolveIfDirty.globals = t.globals := by
  unfold resolveIfDirty; split_ifs <;> rfl

theorem names_addToList (f : TemplateFieldname) (l : List TemplateFieldname) :
    (addToList f l).map (·.name) =
      if f.name ∈ l.map (·.name) then l.map (·.name) else l.map (·.name)++[f.name] := by
  induction l with
  | nil => simp [addToList]
  | cons temp rest ih =>
    by_cases h : temp.name = f.name
    · simp [addToList, h]
    · simp only [addToList, h, if_false, List.map_cons, ih, List.mem_cons, Ne.symm h, false_or]
      split_ifs <;> simp

theorem mem_addToList {f g : TemplateFieldname} {l : List TemplateFieldname} (h : g ∈ addToList f l) :
    g = f ∨ g ∈ l := by
  induction l with
  | nil => simpa [addToList] using h
  | cons temp rest ih =>
    simp only [addToList] at h
    split_ifs at h
    · exact (List.mem_cons.1 h).imp_right (List.mem_cons_of_mem _)
    · rcases List.mem_cons.1 h with rfl | h
      · exact .inr (List.mem_cons_self _ _)
      · exact (ih h).imp_right (List.mem_cons_of_mem _)

theorem addToList_of_not_mem {f : TemplateFieldname} {l : List TemplateFieldname}
    (h : ∀ g ∈ l, g.name ≠ f.name) : addToList f l = l++[f] := by
  induction l with
  | nil => rfl
  | cons temp rest ih =>
    simp [addToList, h temp (List.mem_cons_self _ _), ih fun g hg => h g (List.mem_cons_of_mem _ hg)]

theorem addToList_of_mem {f : TemplateFieldname} {l : List TemplateFieldname}
    (h : f.name ∈ l.map (·.name)) :
    ∃ i, ∃ hi : i < l.length, (l.get ⟨i, hi⟩).name = f.name ∧ addToList f l = l.set i f := by
  induction l with
  | nil => simp at h
  | cons temp rest ih =>
    by_cases ht : temp.name = f.name
    · exact ⟨0, by simp, ht, by simp [addToList, ht]⟩
    · have hr : f.name ∈ rest.map (·.name) := by
        simp only [List.map_cons, List.mem_cons] at h
        exact h.resolve_left (Ne.symm ht)
      obtain ⟨i, hi, hn, he⟩ := ih hr
      exact ⟨i+1, by simp [hi], hn, by simp [addToList, ht, he]⟩

end Templates

end Kicad
