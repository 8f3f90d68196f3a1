import Kicad.TemplateFieldnames

/-!
# Writing and reading templates

`TEMPLATES::Format` writes `(templatefields (field (name "n") visible url) ...)`
and `TEMPLATES::parse` reads such text back through the template-fieldnames
lexer, adding each field it reads. The model works on the lexer's tokens: the
end of the list is `T_EOF`, and a name written with `Quotew` is read back as
one string token holding what was printed of it: `Quotew` and `%s` pass C
strings, so a name is cut before its first NUL. A parse error is the `IO_ERROR`
thrown by `Expecting` or `Unexpected`; the fields added before it stay added.
-/

set_option autoImplicit false

namespace Kicad

/-- The tokens of `TEMPLATE_FIELDNAMES_LEXER`: the punctuation, symbols, quoted
strings and numbers of `DSNLEXER`, and the keywords of the grammar. -/
inductive Tok
  | left | right
  | symbol (text : String) | string (text : String) | number (text : String)
  | field | name | templatefields | url | value | visible
  deriving DecidableEq, Repr

namespace Tok

def curText : Tok → String
  | left => "("
  | right => ")"
  | symbol text | string text | number text => text
  | field => "field"
  | name => "name"
  | templatefields => "templatefields"
  | url => "url"
  | value => "value"
  | visible => "visible"

def isSymbolOrNumber : Tok → Bool
  | left | right => false
  | _ => true

end Tok

inductive ParseError
  | expecting (what : String)
  | unexpected (text : String)
  deriving DecidableEq, Repr

def need (tok : Tok) : List Tok → Except ParseError (List Tok)
  | t::ts => if t = tok then .ok ts else .error (.expecting tok.curText)
  | [] => .error (.expecting tok.curText)

def needSymbolOrNumber : List Tok → Except ParseError (String × List Tok)
  | t::ts => if t.isSymbolOrNumber then .ok (t.curText, ts) else .error (.expecting "symbol|number")
  | [] => .error (.expecting "symbol|number")

/-- What `%s` prints of `Quotew( m_Name ).c_str()`: `Quotew` passes the name on
as the C string `TO_UTF8` makes, so the text ends before the name's first NUL. -/
def cString (s : String) : String := ⟨s.data.takeWhile (· ≠ Char.ofNat 0)⟩

theorem cString_of_nul_free {s : String} (h : Char.ofNat 0 ∉ s.data) : cString s = s :=
  congrArg String.mk (List.takeWhile_eq_self_iff.mpr fun c hc =>
    decide_eq_true fun (h0 : c = Char.ofNat 0) => h (h0 ▸ hc))

namespace TemplateFieldname

/-- The attribute loop of `TEMPLATE_FIELDNAME::Parse`. `afterLeft` says that the
loop has just read a `(`, so the next token is dispatched without the loop test. -/
def parseAttrs (f : TemplateFieldname) : Bool → List Tok → Except ParseError (TemplateFieldname × List Tok)
  | false, [] => .ok (f, [])
  | false, .right::ts => .ok (f, ts)
  | false, .left::ts => parseAttrs f true ts
  | _, .value::t::.right::ts =>
    if t.isSymbolOrNumber then parseAttrs f false ts else .error (.expecting "symbol|number")
  | _, .value::t::_ => .error (if t.isSymbolOrNumber then .expecting ")" else .expecting "symbol|number")
  | _, [.value] => .error (.expecting "symbol|number")
  | _, .visible::ts => parseAttrs { f with visible := true } false ts
  | _, .url::ts => parseAttrs { f with url := true } false ts
  | _, _ => .error (.expecting "value|url|visible")

def parse (ts : List Tok) : Except ParseError (TemplateFieldname × List Tok) := do
  let ts ← need .left ts
  let ts ← need .name ts
  let (name, ts) ← needSymbolOrNumber ts
  let ts ← need .right ts
  parseAttrs { name := name } false ts

def format (f : TemplateFieldname) : List Tok :=
  [.left, .field, .left, .name, .string (cString f.name), .right] ++
    (if f.visible then [.visible] else []) ++ (if f.url then [.url] else []) ++ [.right]

theorem format_append (f : TemplateFieldname) (rest : List Tok) :
    f.format ++ rest = .left::.field::.left::.name::.string (cString f.name)::.right::
      ((if f.visible then [.visible] else []) ++ (if f.url then [.url] else []) ++ .right::rest) := by
  simp [format]

theorem need_length {tok : Tok} {ts rest : List Tok} (h : need tok ts = .ok rest) :
    rest.length < ts.length := by
  match ts with
  | [] => simp [need] at h
  | t::ts => simp only [need] at h; split_ifs at h; cases h; simp

theorem needSymbolOrNumber_length {ts rest : List Tok} {s : String}
    (h : needSymbolOrNumber ts = .ok (s, rest)) : rest.length < ts.length := by
  match ts with
  | [] => simp [needSymbolOrNumber] at h
  | t::ts => simp only [needSymbolOrNumber] at h; split_ifs at h; cases h; simp

theorem parseAttrs_length {f g : TemplateFieldname} {afterLeft : Bool} {ts rest : List Tok}
    (h : parseAttrs f afterLeft ts = .ok (g, rest)) : rest.length ≤ ts.length := by
  induction f, afterLeft, ts using parseAttrs.induct <;> simp only [parseAttrs] at h
  case case1 | case2 => cases h; simp
  case case3 ih | case8 ih | case9 ih => exact (ih h).trans (by simp)
  case case4 hs ih => rw [if_pos hs] at h; exact (ih h).trans (by simp; omega)
  case case5 hs => rw [if_neg hs] at h; cases h
  all_goals cases h

theorem bind_eq_ok {α β : Type} {x : Except ParseError α} {f : α → Except ParseError β} {b : β} :
    x >>= f = .ok b ↔ ∃ a, x = .ok a ∧ f a = .ok b := by
  cases x <;> simp [bind, Except.bind]

theorem parse_length {ts rest : List Tok} {f : TemplateFieldname} (h : parse ts = .ok (f, rest)) :
    rest.length < ts.length := by
  obtain ⟨ts₁, h₁, h⟩ := bind_eq_ok.1 h
  obtain ⟨ts₂, h₂, h⟩ := bind_eq_ok.1 h
  obtain ⟨⟨name, ts₃⟩, h₃, h⟩ := bind_eq_ok.1 h
  obtain ⟨ts₄, h₄, h⟩ := bind_eq_ok.1 h
  have := need_length h₁; have := need_length h₂
  have := needSymbolOrNumber_length h₃; have := need_length h₄; have := parseAttrs_length h
  omega

theorem parse_format (f : TemplateFieldname) (rest : List Tok) :
    parse (.left::.name::.string (cString f.name)::.right::
      ((if f.visible then [.visible] else []) ++ (if f.url then [.url] else []) ++ .right::rest)) =
      .ok ({ f with name := cString f.name }, rest) := by
  obtain ⟨name, visible, url⟩ := f
  cases visible <;> cases url <;>
    simp [parse, need, needSymbolOrNumber, Tok.isSymbolOrNumber, Tok.curText, parseAttrs, bind,
      Except.bind]

end TemplateFieldname

namespace Templates

def format (t : Templates) (aGlobal : Bool) : List Tok :=
  [.left, .templatefields] ++
    (if aGlobal then t.globals else t.project).flatMap
      (fun temp => if temp.name = "" then [] else temp.format) ++ [.right]

section Parse
variable (MANDATORY_FIELDS : ℕ) (getCanonicalFieldName : ℕ → String)

/-- `TEMPLATES::parse( in, aGlobal )`: the templates once the loop ends, and the
error it throws if it stops on one. `afterLeft` says that the loop has just read
a `(`. A field is added only when its name is not empty. -/
def parse (aGlobal : Bool) : Bool → Templates → List Tok → Templates × Option ParseError
  | false, t, [] => (t, none)
  | false, t, .right::_ => (t, none)
  | false, t, .left::ts => parse aGlobal true t ts
  | _, t, .templatefields::ts => parse aGlobal false t ts
  | _, t, .field::ts =>
    match _hparse : TemplateFieldname.parse ts with
    | .ok (field, rest) =>
      parse aGlobal false
        (if field.name = "" then t
          else addTemplateFieldName MANDATORY_FIELDS getCanonicalFieldName field aGlobal t) rest
    | .error e => (t, some e)
  | _, t, tok::_ => (t, some (.unexpected tok.curText))
  | true, t, [] => (t, some (.unexpected ""))
termination_by _ _ ts => ts.length
decreasing_by
  all_goals simp_wf
  exact Nat.lt_succ_of_lt (TemplateFieldname.parse_length _hparse)

def addTemplateFieldNames (aSerializedFieldNames : List Tok) (t : Templates) : Templates :=
  (parse MANDATORY_FIELDS getCanonicalFieldName true false t aSerializedFieldNames).1

theorem parse_field_ok {aGlobal afterLeft : Bool} {t : Templates} {ts rest : List Tok}
    {field : TemplateFieldname} (h : TemplateFieldname.parse ts = .ok (field, rest)) :
    parse MANDATORY_FIELDS getCanonicalFieldName aGlobal afterLeft t (.field::ts) =
      parse MANDATORY_FIELDS getCanonicalFieldName aGlobal false
        (if field.name = "" then t
          else addTemplateFieldName MANDATORY_FIELDS getCanonicalFieldName field aGlobal t) rest := by
  rw [parse]
  split
  · next heq => rw [h] at heq; cases heq; rfl
  · next heq => rw [h] at heq; cases heq

theorem parse_eq_foldl (aGlobal afterLeft : Bool) (t : Templates) (ts : List Tok) :
    ∃ fs : List TemplateFieldname,
      (parse MANDATORY_FIELDS getCanonicalFieldName aGlobal afterLeft t ts).1 =
        fs.foldl (fun t f => addTemplateFieldName MANDATORY_FIELDS getCanonicalFieldName f aGlobal t) t := by
  induction afterLeft, t, ts using parse.induct MANDATORY_FIELDS getCanonicalFieldName aGlobal with
  | case1 | case2 | case8 => exact ⟨[], by simp [parse]⟩
  | case3 _ _ ih | case4 _ _ _ ih => rw [parse]; exact ih
  | case5 _ t _ field _ h ih =>
    obtain ⟨fs, hfs⟩ := ih
    rw [parse_field_ok _ _ h]
    simp only [dite_eq_ite] at hfs
    split_ifs at hfs ⊢
    · exact ⟨fs, hfs⟩
    · exact ⟨field::fs, hfs⟩
  | case6 _ _ _ _ h => exact ⟨[], by rw [parse]; split <;> simp_all⟩
  | case7 _ _ _ _ h₁ h₂ h₃ h₄ => exact ⟨[], by rw [parse.eq_6 _ _ _ _ _ _ _ h₃ h₄ h₁ h₂]; rfl⟩

theorem addTemplateFieldNames_preserves (P : Templates → Prop)
    (hadd : ∀ t f, P t → P (addTemplateFieldName MANDATORY_FIELDS getCanonicalFieldName f true t))
    (ts : List Tok) {t : Templates} (h : P t) :
    P (addTemplateFieldNames MANDATORY_FIELDS getCanonicalFieldName ts t) := by
  obtain ⟨fs, hfs⟩ := parse_eq_foldl MANDATORY_FIELDS getCanonicalFieldName true false t ts
  rw [addTemplateFieldNames, hfs]
  clear hfs
  induction fs generalizing t with
  | nil => exact h
  | cons f fs ih => exact ih (hadd t f h)

theorem parse_flatMap_format (aGlobal : Bool) (fs : List TemplateFieldname) (t : Templates)
    (rest : List Tok) :
    parse MANDATORY_FIELDS getCanonicalFieldName aGlobal false t
        (fs.flatMap (fun temp => if temp.name = "" then [] else temp.format) ++ rest) =
      parse MANDATORY_FIELDS getCanonicalFieldName aGlobal false
        ((fs.map fun f => { f with name := cString f.name }).foldl (fun t f => if f.name = "" then t
          else addTemplateFieldName MANDATORY_FIELDS getCanonicalFieldName f aGlobal t) t) rest := by
  induction fs generalizing t with
  | nil => rfl
  | cons f fs ih =>
    by_cases hf : f.name = ""
    · have hc : cString f.name = "" := by rw [hf]; rfl
      simpa [hf, hc] using ih t
    · rw [List.flatMap_cons, if_neg hf, List.append_assoc, TemplateFieldname.format_append, parse,
        parse_field_ok _ _ (TemplateFieldname.parse_format f _), ih, List.map_cons, List.foldl_cons]

theorem parse_format_fields (aGlobal : Bool) (fs : List TemplateFieldname) (t : Templates)
    (rest : List Tok) :
    parse MANDATORY_FIELDS getCanonicalFieldName aGlobal false t
        (fs.flatMap (fun temp => if temp.name = "" then [] else temp.format) ++ .right::rest) =
      ((fs.map fun f => { f with name := cString f.name }).foldl (fun t f => if f.name = "" then t
        else addTemplateFieldName MANDATORY_FIELDS getCanonicalFieldName f aGlobal t) t, none) := by
  rw [parse_flatMap_format, parse]

theorem foldl_addTemplateFieldName_globals (fs : List TemplateFieldname) (t : Templates)
    (hne : ∀ f ∈ fs, f.name ≠ "")
    (hfix : ∀ f ∈ fs, ∀ i < MANDATORY_FIELDS, getCanonicalFieldName i ≠ f.name)
    (hnd : ((t.globals ++ fs).map (·.name)).Nodup) :
    (fs.foldl (fun t f => if f.name = "" then t
      else addTemplateFieldName MANDATORY_FIELDS getCanonicalFieldName f true t) t).globals =
      t.globals ++ fs := by
  induction fs generalizing t with
  | nil => simp
  | cons f fs ih =>
    have hd : (t.globals.map (·.name)).Disjoint ((f::fs).map (·.name)) :=
      (List.nodup_append.1 (by rwa [List.map_append] at hnd)).2.2
    have hnew : ∀ g ∈ t.globals, g.name ≠ f.name := fun g hg he =>
      hd (List.mem_map_of_mem _ hg) (by simp [he])
    rw [List.foldl_cons, if_neg (hne f (List.mem_cons_self _ _)),
      addTemplateFieldName_of_free _ _ _ _ (hfix f (List.mem_cons_self _ _)), if_pos rfl,
      ih _ (fun g hg => hne g (List.mem_cons_of_mem _ hg))
        (fun g hg => hfix g (List.mem_cons_of_mem _ hg)) (by simpa [addToList_of_not_mem hnew] using hnd)]
    simp [addToList_of_not_mem hnew]

theorem addTemplateFieldNames_format_cString (src t : Templates)
    (hne : ∀ f ∈ src.globals, cString f.name ≠ "")
    (hnd : (src.globals.map fun f => cString f.name).Nodup)
    (hfix : ∀ f ∈ src.globals, ∀ i < MANDATORY_FIELDS, getCanonicalFieldName i ≠ cString f.name)
    (ht : t.globals = []) :
    (addTemplateFieldNames MANDATORY_FIELDS getCanonicalFieldName (src.format true) t).globals =
      src.globals.map fun f => { f with name := cString f.name } := by
  simp only [addTemplateFieldNames, format, if_true, List.append_assoc, List.cons_append,
    List.nil_append]
  rw [parse, parse, parse_format_fields, foldl_addTemplateFieldName_globals _ _ _ _
    (by simpa using hne) (by simpa using hfix) (by simpa [ht, Function.comp_def] using hnd), ht, List.nil_append]

/-- Reading back what `Format( out, nestLevel, true )` writes, into templates
with no global ones, gives back the global templates, flags and order included,
when no name holds a NUL. -/
theorem addTemplateFieldNames_format (src t : Templates)
    (hne : ∀ f ∈ src.globals, f.name ≠ "")
    (hnul : ∀ f ∈ src.globals, Char.ofNat 0 ∉ f.name.data)
    (hnd : (src.globals.map (·.name)).Nodup)
    (hfix : ∀ f ∈ src.globals, ∀ i < MANDATORY_FIELDS, getCanonicalFieldName i ≠ f.name)
    (ht : t.globals = []) :
    (addTemplateFieldNames MANDATORY_FIELDS getCanonicalFieldName (src.format true) t).globals =
      src.globals := by
  have hc : ∀ f ∈ src.globals, cString f.name = f.name := fun f hf => cString_of_nul_free (hnul f hf)
  rw [addTemplateFieldNames_format_cString _ _ src t (fun f hf => by rw [hc f hf]; exact hne f hf)
    (by rwa [List.map_congr_left hc]) (fun f hf => by rw [hc f hf]; exact hfix f hf) ht]
  calc src.globals.map (fun f => { f with name := cString f.name })
      = src.globals.map id := List.map_congr_left fun f hf => by rw [hc f hf]; rfl
    _ = src.globals := List.map_id _

/-- Text written by `Format` that breaks off on any other token in place of its
closing `)` makes the loop throw `Unexpected` there, and every field read before
that token stays added: reading templates is not all-or-nothing, and
`AddTemplateFieldNames`, which drops the error, keeps them. -/
theorem parse_format_unexpected (aGlobal : Bool) (src t : Templates) {tok : Tok} (rest : List Tok)
    (htok : tok ∉ [.left, .right, .field, .templatefields]) :
    parse MANDATORY_FIELDS getCanonicalFieldName aGlobal false t ((src.format aGlobal).dropLast ++ tok::rest) =
      (((if aGlobal then src.globals else src.project).map fun f => { f with name := cString f.name }).foldl
        (fun t f =>
          if f.name = "" then t else addTemplateFieldName MANDATORY_FIELDS getCanonicalFieldName f aGlobal t) t,
        some (.unexpected tok.curText)) := by
  simp only [List.mem_cons, List.not_mem_nil, or_false, not_or] at htok
  rw [format, List.dropLast_concat, List.append_assoc, List.cons_append, List.cons_append, List.nil_append,
    parse, parse, parse_flatMap_format]
  exact parse.eq_6 _ _ _ _ _ _ _ htok.2.2.2 htok.2.2.1 (fun _ => htok.2.1) (fun _ => htok.1)

end Parse

def keywordTemplates : Templates :=
  ⟨[⟨"MPN", false, false⟩, ⟨"value", true, false⟩, ⟨"url (visible)", true, true⟩], [], [], false⟩

theorem addTemplateFieldNames_format_keywords :
    (addTemplateFieldNames 5 getDefaultFieldName (keywordTemplates.format true) (create true)).globals =
      keywordTemplates.globals :=
  addTemplateFieldNames_format 5 getDefaultFieldName keywordTemplates (create true) (by decide)
    (by decide) (by decide) (by decide) rfl

def nulTemplates : Templates := ⟨[⟨"a\x00b", false, false⟩], [], [], false⟩

theorem addTemplateFieldNames_format_nul :
    (∀ f ∈ nulTemplates.globals, f.name ≠ "") ∧ (nulTemplates.globals.map (·.name)).Nodup ∧
      (∀ f ∈ nulTemplates.globals, ∀ i < 5, getDefaultFieldName i ≠ f.name) ∧
      (addTemplateFieldNames 5 getDefaultFieldName (nulTemplates.format true) (create true)).globals =
        [⟨"a", false, false⟩] ∧
      [⟨"a", false, false⟩] ≠ nulTemplates.globals := by
  refine ⟨by decide, by decide, by decide, ?_, by decide⟩
  rw [addTemplateFieldNames_format_cString 5 getDefaultFieldName nulTemplates (create true) (by decide)
    (by decide) (by decide) rfl]
  decide

theorem parse_format_unexpected_keywords :
    Tok.symbol "x" ∉ [Tok.left, .right, .field, .templatefields] ∧
      parse 5 getDefaultFieldName true false (create true)
          ((keywordTemplates.format true).dropLast ++ [.symbol "x"]) =
        ((keywordTemplates.globals.map fun f => { f with name := cString f.name }).foldl
          (fun t f => if f.name = "" then t else addTemplateFieldName 5 getDefaultFieldName f true t)
          (create true), some (.unexpected "x")) :=
  ⟨by decide, parse_format_unexpected 5 getDefaultFieldName true keywordTemplates (create true) [] (by decide)⟩

end Templates

end Kicad
