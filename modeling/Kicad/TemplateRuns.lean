import Kicad.TemplateParse

/-!
# Runs of template calls

A `TEMPLATES` object under any sequence of calls. Every call keeps the names of
each list distinct and none of them mandatory, and keeps the resolved cache
equal to the project templates followed by the global ones whenever it is
marked clean. So `GetTemplateFieldNames()` returns the project templates
followed by every global one, a global shadowed by a project template of the
same name included, and `GetFieldName` finds the project template first.
-/

set_option autoImplicit false

namespace Kicad.Templates

inductive Op
  | addTemplateFieldName (aFieldName : TemplateFieldname) (aGlobal : Bool)
  | addTemplateFieldNames (aSerializedFieldNames : List Tok)
  | deleteAllFieldNameTemplates (aGlobal : Bool)
  | getTemplateFieldNames
  | getFieldName (aName : String)

section Run
variable (MANDATORY_FIELDS : ℕ) (getCanonicalFieldName : ℕ → String)

def step : Op → Templates → Templates
  | .addTemplateFieldName f aGlobal, t =>
    addTemplateFieldName MANDATORY_FIELDS getCanonicalFieldName f aGlobal t
  | .addTemplateFieldNames ts, t => addTemplateFieldNames MANDATORY_FIELDS getCanonicalFieldName ts t
  | .deleteAllFieldNameTemplates aGlobal, t => t.deleteAllFieldNameTemplates aGlobal
  | .getTemplateFieldNames, t => t.getTemplateFieldNames.2
  | .getFieldName aName, t => (t.getFieldName aName).2

def run : List Op → Templates → Templates
  | [], t => t
  | op::ops, t => run ops (step MANDATORY_FIELDS getCanonicalFieldName op t)

structure ListNamed (l : List TemplateFieldname) : Prop where
  nodup : (l.map (·.name)).Nodup
  free : ∀ f ∈ l, ∀ i < MANDATORY_FIELDS, getCanonicalFieldName i ≠ f.name

/-- Both lists are well named. -/
structure WellNamed (t : Templates) : Prop where
  globals : ListNamed MANDATORY_FIELDS getCanonicalFieldName t.globals
  project : ListNamed MANDATORY_FIELDS getCanonicalFieldName t.project

def ResolvedFresh (t : Templates) : Prop := t.resolvedDirty = false → t.resolved = t.project++t.globals

end Run

section Lemmas
variable {MANDATORY_FIELDS : ℕ} {getCanonicalFieldName : ℕ → String}

theorem ListNamed.nil : ListNamed MANDATORY_FIELDS getCanonicalFieldName [] :=
  ⟨List.nodup_nil, fun _ h => absurd h (List.not_mem_nil _)⟩

theorem ListNamed.addToList {l : List TemplateFieldname} (h : ListNamed MANDATORY_FIELDS getCanonicalFieldName l)
    {f : TemplateFieldname} (hf : ∀ i < MANDATORY_FIELDS, getCanonicalFieldName i ≠ f.name) :
    ListNamed MANDATORY_FIELDS getCanonicalFieldName (Templates.addToList f l) := by
  refine ⟨?_, fun g hg => ?_⟩
  · rw [names_addToList]
    split_ifs with hm
    · exact h.nodup
    · exact h.nodup.append (List.nodup_singleton _) (List.disjoint_singleton.2 hm)
  · rcases mem_addToList hg with rfl | hg
    · exact hf
    · exact h.free g hg

theorem ListNamed.free_of_mem {l : List TemplateFieldname}
    (h : ListNamed MANDATORY_FIELDS getCanonicalFieldName l) {aName : String} (hn : aName ∈ l.map (·.name)) :
    ∀ i < MANDATORY_FIELDS, getCanonicalFieldName i ≠ aName := by
  obtain ⟨g, hg, rfl⟩ := List.mem_map.1 hn
  exact h.free g hg

namespace WellNamed

theorem addTemplateFieldName {t : Templates} (h : WellNamed MANDATORY_FIELDS getCanonicalFieldName t)
    (f : TemplateFieldname) (aGlobal : Bool) :
    WellNamed MANDATORY_FIELDS getCanonicalFieldName
      (addTemplateFieldName MANDATORY_FIELDS getCanonicalFieldName f aGlobal t) := by
  by_cases hf : ∀ i < MANDATORY_FIELDS, getCanonicalFieldName i ≠ f.name
  · rw [addTemplateFieldName_of_free _ _ _ _ hf]
    cases aGlobal
    · exact ⟨h.globals, h.project.addToList hf⟩
    · exact ⟨h.globals.addToList hf, h.project⟩
  · push_neg at hf
    obtain ⟨i, hi, he⟩ := hf
    rw [addTemplateFieldName_of_mandatory _ _ _ _ hi he]
    exact h

theorem step {t : Templates} (h : WellNamed MANDATORY_FIELDS getCanonicalFieldName t) (op : Op) :
    WellNamed MANDATORY_FIELDS getCanonicalFieldName (step MANDATORY_FIELDS getCanonicalFieldName op t) := by
  cases op with
  | addTemplateFieldName f aGlobal => exact h.addTemplateFieldName f aGlobal
  | addTemplateFieldNames ts =>
    exact addTemplateFieldNames_preserves _ _ _ (fun _ f h => h.addTemplateFieldName f true) ts h
  | deleteAllFieldNameTemplates aGlobal =>
    cases aGlobal
    · exact ⟨h.globals, .nil⟩
    · exact ⟨.nil, h.project⟩
  | getTemplateFieldNames | getFieldName =>
    simp only [Templates.step, getTemplateFieldNames, getFieldName, resolveIfDirty]
    split_ifs
    · exact ⟨h.globals, h.project⟩
    · exact h

theorem run {t : Templates} (h : WellNamed MANDATORY_FIELDS getCanonicalFieldName t) (ops : List Op) :
    WellNamed MANDATORY_FIELDS getCanonicalFieldName (Templates.run MANDATORY_FIELDS getCanonicalFieldName ops t) := by
  induction ops generalizing t with
  | nil => exact h
  | cons op ops ih => exact ih (h.step op)

theorem addTemplateFieldName_of_mem {t : Templates} (h : WellNamed MANDATORY_FIELDS getCanonicalFieldName t)
    {f : TemplateFieldname} {aGlobal : Bool} (hn : f.name ∈ (t.getTemplateFieldNamesOf aGlobal).map (·.name)) :
    ∃ i, ∃ hi : i < (t.getTemplateFieldNamesOf aGlobal).length,
      ((t.getTemplateFieldNamesOf aGlobal).get ⟨i, hi⟩).name = f.name ∧
      (Templates.addTemplateFieldName MANDATORY_FIELDS getCanonicalFieldName f aGlobal t).getTemplateFieldNamesOf
        aGlobal = (t.getTemplateFieldNamesOf aGlobal).set i f := by
  cases aGlobal
  · rw [addTemplateFieldName_of_free _ _ _ _ (h.project.free_of_mem hn)]
    exact addToList_of_mem hn
  · rw [addTemplateFieldName_of_free _ _ _ _ (h.globals.free_of_mem hn)]
    exact addToList_of_mem hn

end WellNamed

theorem create_wellNamed (resolvedDirty : Bool) :
    WellNamed MANDATORY_FIELDS getCanonicalFieldName (create resolvedDirty) := ⟨.nil, .nil⟩

namespace ResolvedFresh

theorem addTemplateFieldName {t : Templates} (h : ResolvedFresh t) (f : TemplateFieldname) (aGlobal : Bool) :
    ResolvedFresh (addTemplateFieldName MANDATORY_FIELDS getCanonicalFieldName f aGlobal t) := by
  unfold Templates.addTemplateFieldName
  split_ifs
  · exact h
  all_goals intro hd; cases hd

theorem resolveIfDirty_resolved {t : Templates} (h : ResolvedFresh t) :
    t.resolveIfDirty.resolved = t.project++t.globals := by
  unfold resolveIfDirty
  split_ifs with hd
  · exact resolveTemplates_resolved t
  · exact h (Bool.not_eq_true _ ▸ hd)

theorem step {t : Templates} (h : ResolvedFresh t) (op : Op) :
    ResolvedFresh (step MANDATORY_FIELDS getCanonicalFieldName op t) := by
  cases op with
  | addTemplateFieldName f aGlobal => exact h.addTemplateFieldName f aGlobal
  | addTemplateFieldNames ts =>
    exact addTemplateFieldNames_preserves _ _ _ (fun _ f h => h.addTemplateFieldName f true) ts h
  | deleteAllFieldNameTemplates aGlobal =>
    cases aGlobal <;> simp [ResolvedFresh, Templates.step, deleteAllFieldNameTemplates]
  | getTemplateFieldNames | getFieldName =>
    intro _
    simp only [Templates.step, getTemplateFieldNames, getFieldName, resolveIfDirty_project,
      resolveIfDirty_globals, h.resolveIfDirty_resolved]

theorem run {t : Templates} (h : ResolvedFresh t) (ops : List Op) :
    ResolvedFresh (Templates.run MANDATORY_FIELDS getCanonicalFieldName ops t) := by
  induction ops generalizing t with
  | nil => exact h
  | cons op ops ih => exact ih (h.step op)

end ResolvedFresh

theorem create_resolvedFresh (resolvedDirty : Bool) : ResolvedFresh (create resolvedDirty) := fun _ => rfl

end Lemmas

section Reachable
variable (MANDATORY_FIELDS : ℕ) (getCanonicalFieldName : ℕ → String)

/-- On every object reached from a fresh one, both lists are well named, and
adding a template whose name the target list holds overwrites that entry in
place. -/
theorem wellNamed_of_run (resolvedDirty : Bool) (ops : List Op) :
    let t := run MANDATORY_FIELDS getCanonicalFieldName ops (create resolvedDirty)
    WellNamed MANDATORY_FIELDS getCanonicalFieldName t ∧
      ∀ (f : TemplateFieldname) (aGlobal : Bool), f.name ∈ (t.getTemplateFieldNamesOf aGlobal).map (·.name) →
        ∃ i, ∃ hi : i < (t.getTemplateFieldNamesOf aGlobal).length,
          ((t.getTemplateFieldNamesOf aGlobal).get ⟨i, hi⟩).name = f.name ∧
          (addTemplateFieldName MANDATORY_FIELDS getCanonicalFieldName f aGlobal t).getTemplateFieldNamesOf
            aGlobal = (t.getTemplateFieldNamesOf aGlobal).set i f :=
  have h := (create_wellNamed resolvedDirty).run ops
  ⟨h, fun _ _ hn => h.addTemplateFieldName_of_mem hn⟩

/-- `GetTemplateFieldNames()` returns the project templates followed by every
global one. -/
theorem getTemplateFieldNames_of_run (resolvedDirty : Bool) (ops : List Op) :
    let t := run MANDATORY_FIELDS getCanonicalFieldName ops (create resolvedDirty)
    t.getTemplateFieldNames.1 = t.project++t.globals :=
  ((create_resolvedFresh resolvedDirty).run ops).resolveIfDirty_resolved

/-- `GetFieldName( aName )` finds the project template of that name, and else the
global one. -/
theorem getFieldName_of_run (resolvedDirty : Bool) (ops : List Op) (aName : String) :
    let t := run MANDATORY_FIELDS getCanonicalFieldName ops (create resolvedDirty)
    (t.getFieldName aName).1 =
      (t.project.find? (·.name = aName)).or (t.globals.find? (·.name = aName)) := by
  simp only [getFieldName, ((create_resolvedFresh resolvedDirty).run ops).resolveIfDirty_resolved,
    List.find?_append]

end Reachable

def shadowRun : List Op :=
  [.addTemplateFieldName ⟨"MPN", false, false⟩ false, .addTemplateFieldName ⟨"MPN", true, false⟩ true]

theorem getTemplateFieldNames_keeps_shadowed : ∀ resolvedDirty,
    (run 5 getDefaultFieldName shadowRun (create resolvedDirty)).getTemplateFieldNames.1 =
      [⟨"MPN", false, false⟩, ⟨"MPN", true, false⟩] := by
  decide

end Kicad.Templates
