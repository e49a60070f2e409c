import Mathlib.Data.List.Nodup
import WaitFor.Proofs.Encoding.RoundTrip

/-! # What reading depends on

A reader looks at nothing but the declared fields of a record.  A `Schema` says which those are: for
a variant they depend on its tag, which is one of them.  Two values are alike for a schema
(`Value.Alike`) if they agree in the declared fields, in any order and beside any other fields; a
field that is left out agrees with its default, and inside a field that is a record itself the same
holds again.  Alike values are read alike, `reading_depends_on_declared_fields`.

A call that appends is read as its submission is, from the same fields.  The one difference is in
the operation inside, whose kind may be written as a number in a call only.
-/

namespace WaitFor

namespace Value

/-- A declared field of a record: its name, what stands for it where it is left out, if that is
allowed, and which of its values say the same. -/
structure Field where
  name : String
  default : Option Value := none
  alike : Value → Value → Prop := Eq
  refl : ∀ v, alike v v := by exact fun _ => rfl

/-- The declared fields of a record, in order, no two of them with the same name.  The record is
given because they may depend on its tag. -/
structure Schema where
  declared : Fields → List Field
  nodup : ∀ f, ((declared f).map Field.name).Nodup

/-- No name is given twice. -/
def Fields.Distinct : Fields → Prop
  | .named fields => (fields.map Prod.fst).Nodup
  | .positional _ => True

/-- What a record says in a declared field. -/
def Field.value? (d : Field) (fields : List (String × Value)) : Option Value :=
  (fields.lookup d.name).or d.default

/-- Two records, written in the same form, say the same in the declared fields. -/
def Fields.Agree (declared : List Field) : Fields → Fields → Prop
  | .named f, .named g => ∀ d ∈ declared, Option.Rel d.alike (d.value? f) (d.value? g)
  | .positional es, .positional es' => es.length = es'.length ∧
    ∀ (i : Nat) (d : Field), declared[i]? = some d → Option.Rel d.alike es[i]? es'[i]?
  | _, _ => False

/-- Two values say the same to a reader that knows the schema: they are equal, or they are records
that agree in the declared fields. -/
inductive Alike (schema : Schema) : Value → Value → Prop
  | refl (v : Value) : Alike schema v v
  | fields {v w : Value} {f g : Fields} (hv : v.fields? = some f) (hw : w.fields? = some g)
      (hf : f.Distinct) (hg : g.Distinct) (hagree : f.Agree (schema.declared f) g) :
      Alike schema v w

/-- Two sequences of the same length say the same place by place. -/
inductive AlikeList (alike : Value → Value → Prop) : Value → Value → Prop
  | refl (v : Value) : AlikeList alike v v
  | elements {vs ws : List Value} (h : List.Forall₂ alike vs ws) :
      AlikeList alike (.list vs) (.list ws)

namespace Schema

/-- The schema of records that all have the same fields. -/
def record (fields : List Field) (h : (fields.map Field.name).Nodup) : Schema where
  declared _ := fields
  nodup _ := h

/-- The schema of variants, whose tag is called `key` and stands in front. -/
def variant (key : String) (fields : Value → List Field)
    (h : ∀ tag, (key :: (fields tag).map Field.name).Nodup) : Schema where
  declared f := { name := key } :: (f.get? 0 key).elim [] fields
  nodup f := by
    cases f.get? 0 key with
    | none => exact List.nodup_singleton key
    | some tag => exact h tag

/-- Whether the name of a field is declared. -/
def declares (schema : Schema) (f : Fields) (name : String) : Bool :=
  ((schema.declared f).map Field.name).contains name

end Schema

/-- A reader depends on what the schema declares: the declared fields may stand in any order and
beside any other fields, one that is left out stands for its default, and all this holds again
inside the declared fields. -/
structure ReadsBy {α : Type} (schema : Schema) (read : Value → Option α) : Prop where
  declared_only : ∀ f g, Fields.Distinct (.named f) → Fields.Distinct (.named g) →
    (f.filter fun e => schema.declares (.named f) e.1).Perm
      (g.filter fun e => schema.declares (.named f) e.1) →
    read (.object f) = read (.object g)
  left_out : ∀ f, Fields.Distinct (.named f) → ∀ d ∈ schema.declared (.named f),
    d.name ∉ f.map Prod.fst → ∀ v, d.default = some v →
    read (.object f) = read (.object ((d.name, v) :: f))
  alike : ∀ v w, Alike schema v w → read v = read w

/-! ## Reading fields -/

theorem rel_eq_iff {o o' : Option Value} : Option.Rel Eq o o' ↔ o = o' := by
  constructor
  · rintro (h | _)
    · exact congrArg some h
    · rfl
  · rintro rfl
    cases o
    · exact .none
    · exact .some rfl

namespace Fields.Agree

variable {α : Type} {declared : List Field} {f g : Fields} {i : Nat} {d : Field}
  {read : Value → Option α}

/-- Fields that agree in what is declared are surplus together, or neither are. -/
theorem fits (h : f.Agree declared g) (count : Nat) : f.fits count = g.fits count := by
  cases f with
  | named => cases g with
    | named => rfl
    | positional => exact h.elim
  | positional => cases g with
    | named => exact h.elim
    | positional => rw [Fields.fits, Fields.fits, h.1]

/-- A field that must be given says the same in both records. -/
theorem get? (h : f.Agree declared g) (hd : declared[i]? = some d) (hdefault : d.default = none) :
    Option.Rel d.alike (f.get? i d.name) (g.get? i d.name) := by
  cases f with
  | named => cases g with
    | named =>
      have := h d (List.mem_of_getElem? hd)
      rwa [Field.value?, Field.value?, hdefault, Option.or_none, Option.or_none] at this
    | positional => exact h.elim
  | positional => cases g with
    | named => exact h.elim
    | positional => exact h.2 i d hd

/-- A field is read alike if alike values of it are. -/
theorem required_alike {name : String} {alike : Value → Value → Prop} {refl : ∀ v, alike v v}
    (h : f.Agree declared g) (hd : declared[i]? = some { name, alike, refl })
    (hread : ∀ v w, alike v w → read v = read w) :
    f.required i name read = g.required i name read := by
  have hrel := h.get? hd rfl
  rw [Fields.required, Fields.required]
  generalize f.get? i name = o, g.get? i name = o' at hrel
  cases hrel with
  | none => rfl
  | some h => exact hread _ _ h

/-- A field that must be there is read alike in fields that agree in it. -/
theorem required {name : String} (h : f.Agree declared g) (hd : declared[i]? = some { name })
    (read : Value → Option α) : f.required i name read = g.required i name read :=
  h.required_alike hd fun _ _ => congrArg read

/-- A field that may be left out is read alike in fields that agree in it, where its default is read
as the value that stands for it. -/
theorem optional {name : String} {v : Value} {a : α} (h : f.Agree declared g)
    (hd : declared[i]? = some { name, default := some v }) (hv : read v = some a) :
    f.optional i name read a = g.optional i name read a := by
  have hoptional : ∀ f : Fields, f.optional i name read a = read ((f.get? i name).getD v) := by
    intro f
    rw [Fields.optional]
    cases f.get? i name with
    | none => exact hv.symm
    | some w => rfl
  rw [hoptional, hoptional]
  cases f with
  | named f => cases g with
    | named g =>
      have hrel : Option.Rel Eq ((f.lookup name).or (some v)) ((g.lookup name).or (some v)) :=
        h _ (List.mem_of_getElem? hd)
      rw [rel_eq_iff, Option.or_some, Option.or_some] at hrel
      exact congrArg read (Option.some.inj hrel)
    | positional => exact h.elim
  | positional es => cases g with
    | named => exact h.elim
    | positional es' =>
      have hrel := rel_eq_iff.1 (h.2 i _ hd)
      rw [Fields.get?, Fields.get?, hrel]

end Fields.Agree

/-! ## Reading records -/

section Records

variable {α : Type} {schema : Schema} {v w : Value}

/-- A reader of records reads alike values alike if it reads the same from fields that agree. -/
theorem Alike.read_fields (h : Alike schema v w) {read : Fields → Option α}
    (hread : ∀ f g, f.Agree (schema.declared f) g → read f = read g) :
    v.fields?.bind read = w.fields?.bind read := by
  cases h with
  | refl => rfl
  | fields hv hw _ _ hagree => rw [hv, hw, Option.bind_some, Option.bind_some, hread _ _ hagree]

/-- Only objects have their fields by name. -/
theorem object_of_fields? {f : List (String × Value)} (h : v.fields? = some (.named f)) :
    v = .object f := by
  cases v <;> cases h
  rfl

/-- Only sequences have their fields by position. -/
theorem list_of_fields? {es : List Value} (h : v.fields? = some (.positional es)) :
    v = .list es := by
  cases v <;> cases h
  rfl

/-- Alike variants have the same tag and agree in the fields behind it, or both have no tag. -/
theorem Alike.tagged? {key : String} {fields : Value → List Field}
    {h : ∀ tag, (key :: (fields tag).map Field.name).Nodup}
    (halike : Alike (.variant key fields h) v w) (hne : v ≠ w) :
    (v.tagged? key = none ∧ w.tagged? key = none) ∨
      ∃ tag f g, v.tagged? key = some (tag, f) ∧ w.tagged? key = some (tag, g) ∧
        f.Agree (fields tag) g := by
  cases halike with
  | refl => exact absurd rfl hne
  | @fields _ f g hv hw _ _ hagree =>
    -- The tag is a declared field itself, and what it declares can be compared once it is known.
    have htag : Option.Rel Eq (f.get? 0 key) (g.get? 0 key) :=
      hagree.get? (d := { name := key }) rfl rfl
    rw [rel_eq_iff] at htag
    cases f with
    | named f => cases g with
      | named g =>
        cases object_of_fields? hv
        cases object_of_fields? hw
        have htag : f.lookup key = g.lookup key := htag
        have hagree : ∀ d ∈ { name := key } :: (f.lookup key).elim [] fields,
          Option.Rel d.alike (d.value? f) (d.value? g) := hagree
        rw [Value.tagged?, Value.tagged?, ← htag]
        cases hlookup : f.lookup key with
        | none => exact .inl ⟨rfl, rfl⟩
        | some tag =>
          rw [hlookup] at hagree
          exact .inr ⟨tag, _, _, rfl, rfl, fun d hd => hagree d (List.mem_cons_of_mem _ hd)⟩
      | positional => exact hagree.elim
    | positional es => cases g with
      | named => exact hagree.elim
      | positional es' =>
        cases list_of_fields? hv
        cases list_of_fields? hw
        obtain ⟨hlen, hagree⟩ := hagree
        cases es with
        | nil =>
          cases List.length_eq_zero_iff.1 hlen.symm
          exact .inl ⟨rfl, rfl⟩
        | cons tag es => cases es' with
          | nil => cases hlen
          | cons tag' es' =>
            cases htag
            refine .inr ⟨tag, _, _, rfl, rfl, Nat.succ.inj hlen, fun i d hd => ?_⟩
            exact hagree (i + 1) d hd

/-- A reader of variants reads alike values alike if it reads the same behind the same tag. -/
theorem Alike.read_tagged {key : String} {fields : Value → List Field}
    {h : ∀ tag, (key :: (fields tag).map Field.name).Nodup}
    (halike : Alike (.variant key fields h) v w) {read : Value × Fields → Option α}
    (hread : ∀ tag f g, f.Agree (fields tag) g → read (tag, f) = read (tag, g)) :
    (v.tagged? key).bind read = (w.tagged? key).bind read := by
  by_cases hvw : v = w
  · rw [hvw]
  · rcases halike.tagged? hvw with ⟨hv, hw⟩ | ⟨tag, f, g, hv, hw, hagree⟩
    · rw [hv, hw]
    · rw [hv, hw, Option.bind_some, Option.bind_some, hread tag f g hagree]

/-- Sequences of values that say the same are read alike. -/
theorem AlikeList.list? {alike : Value → Value → Prop} {read : Value → Option α}
    (h : AlikeList alike v w) (hread : ∀ v w, alike v w → read v = read w) :
    v.list? read = w.list? read := by
  cases h with
  | refl => rfl
  | elements h =>
    rw [Value.list?, Value.list?]
    induction h with
    | nil => rfl
    | cons hvw _ ih => rw [List.mapM_cons, List.mapM_cons, hread _ _ hvw, ih]

end Records

/-! ## Order, other fields, and fields left out -/

section Lookup

variable {f g : List (String × Value)} {name : String}

/-- With distinct names, the entry that is looked up is the one that is there. -/
theorem lookup_eq_some_iff_mem (hf : (f.map Prod.fst).Nodup) {v : Value} :
    f.lookup name = some v ↔ (name, v) ∈ f := by
  induction f with
  | nil => simp
  | cons e f ih =>
    obtain ⟨key, w⟩ := e
    rw [List.map_cons, List.nodup_cons] at hf
    rw [List.lookup_cons, List.mem_cons]
    by_cases hname : name = key
    · subst hname
      have hnot : (name, v) ∉ f := fun hv => hf.1 (List.mem_map.2 ⟨_, hv, rfl⟩)
      simp [hnot, eq_comm]
    · rw [beq_false_of_ne hname]
      simp [hname, ih hf.2]

/-- A name without an entry is not found. -/
theorem lookup_eq_none_of_not_mem (h : name ∉ f.map Prod.fst) : f.lookup name = none := by
  rw [List.lookup_eq_none_iff]
  intro e he
  rw [bne_iff_ne]
  rintro rfl
  exact h (List.mem_map_of_mem he)

/-- Fields are found wherever they stand, and beside whatever else. -/
theorem lookup_eq_of_perm {p : String → Bool} (hf : (f.map Prod.fst).Nodup)
    (hg : (g.map Prod.fst).Nodup)
    (h : (f.filter fun e => p e.1).Perm (g.filter fun e => p e.1)) (hname : p name = true) :
    f.lookup name = g.lookup name := by
  ext v
  have hmem : (name, v) ∈ f ↔ (name, v) ∈ g := by
    simpa [List.mem_filter, hname] using h.mem_iff (a := (name, v))
  rw [lookup_eq_some_iff_mem hf, lookup_eq_some_iff_mem hg, hmem]

end Lookup

/-- What a field holds, if anything, says the same as itself. -/
theorem Field.rel_self (d : Field) (o : Option Value) : Option.Rel d.alike o o := by
  cases o with
  | none => exact .none
  | some v => exact .some (d.refl v)

/-- It is enough that alike values are read alike: the order of fields, other fields and fields left
out make values that are alike. -/
theorem ReadsBy.of_alike {α : Type} {schema : Schema} {read : Value → Option α}
    (h : ∀ v w, Alike schema v w → read v = read w) : ReadsBy schema read where
  alike := h
  declared_only f g hf hg hperm := by
    refine h _ _ (.fields rfl rfl hf hg fun d hd => ?_)
    have hdeclared : schema.declares (.named f) d.name = true := by
      rw [Schema.declares, List.contains_iff_mem]
      exact List.mem_map_of_mem hd
    rw [Field.value?, Field.value?, lookup_eq_of_perm hf hg hperm hdeclared]
    exact d.rel_self _
  left_out f hf d hd hname v hdefault := by
    refine h _ _ (.fields rfl rfl hf (List.nodup_cons.2 ⟨hname, hf⟩) fun d' hd' => ?_)
    have hvalue : d'.value? f = d'.value? ((d.name, v) :: f) := by
      -- Only the added field has its name, so the others are looked up as before.
      by_cases heq : d'.name = d.name
      · cases List.inj_on_of_nodup_map (schema.nodup _) hd' hd heq
        rw [Field.value?, Field.value?, lookup_eq_none_of_not_mem hname, List.lookup_cons_self,
          hdefault]
        rfl
      · rw [Field.value?, Field.value?, List.lookup_cons, beq_false_of_ne heq]
    rw [hvalue]
    exact d'.rel_self _

end Value

open Value (Schema Field Alike AlikeList ReadsBy)

/-! ## One schema for each reader -/

namespace Operation

/-- The declared fields of each kind, of which none may be left out. -/
def Kind.declared (k : Kind) : List Field := k.fieldNames.map fun name => { name }

/-- The schema of an operation whose tag has the given form. -/
def schema (form : TagForm) : Schema :=
  .variant "kind"
    (fun tag => (Value.variant? form Kind.all Kind.tag tag).elim [] Kind.declared) <| by
    intro tag
    cases Value.variant? form Kind.all Kind.tag tag with
    | none => exact List.nodup_singleton _
    | some k => cases k <;> decide

/-- An operation is read from its declared fields. -/
theorem ofFields?_congr {f g : Value.Fields} (k : Kind) (h : f.Agree k.declared g) :
    ofFields? f k = ofFields? g k := by
  cases k with
  | memoryCopy =>
    rw [ofFields?, ofFields?, h.required (i := 0) rfl, h.required (i := 1) rfl,
      h.required (i := 2) rfl]
  | memoryFill =>
    rw [ofFields?, ofFields?, h.required (i := 0) rfl, h.required (i := 1) rfl,
      h.required (i := 2) rfl]
  | memoryCopyRegion | imageCopy | launchKernel | launchCooperativeKernel =>
    rw [ofFields?, ofFields?, h.required (i := 0) rfl, h.required (i := 1) rfl]
  | memoryRangesBarrier | writeGlobalTimestamp =>
    rw [ofFields?, ofFields?, h.required (i := 0) rfl]
  | barrier | signalEvent | waitOnEvents => rfl

/-- An operation is read alike from values that say the same. -/
theorem ofValue?_of_alike {form : TagForm} {v w : Value} (h : Alike (schema form) v w) :
    ofValue? form v = ofValue? form w := by
  refine h.read_tagged fun tag f g hagree => ?_
  cases hkind : Value.variant? form Kind.all Kind.tag tag with
  | none =>
    dsimp only
    rw [hkind]
    rfl
  | some k =>
    rw [hkind] at hagree
    dsimp only
    rw [hkind]
    show (do guard (f.fits k.arity); ofFields? f k) = do guard (g.fits k.arity); ofFields? g k
    rw [hagree.fits, ofFields?_congr k hagree]

end Operation

namespace Submission

/-- The declared fields of a submission. -/
def declared (form : TagForm) : List Field :=
  [{ name := "command_list", default := some (.integer 0) },
   { name := "operation", alike := Alike (Operation.schema form), refl := .refl },
   { name := "signal", default := some .null },
   { name := "waits", default := some (.list []) }]

/-- The schema of a submission whose operation has a tag of the given form. -/
def schema (form : TagForm) : Schema :=
  .record (declared form) (by change List.Nodup fieldNames; decide)

/-- A submission is read from its declared fields. -/
theorem ofFields?_congr {form : TagForm} {f g : Value.Fields} (h : f.Agree (declared form) g) :
    ofFields? form f = ofFields? form g := by
  rw [ofFields?, ofFields?, h.fits, h.optional (i := 0) (a := 0) rfl rfl,
    h.required_alike (i := 1) rfl fun _ _ => Operation.ofValue?_of_alike,
    h.optional (i := 2) (a := none) rfl rfl, h.optional (i := 3) (a := []) rfl rfl]

/-- A submission is read alike from values that say the same. -/
theorem ofValue?_of_alike {form : TagForm} {v w : Value} (h : Alike (schema form) v w) :
    ofValue? form v = ofValue? form w :=
  h.read_fields fun _ _ => ofFields?_congr

end Submission

namespace Call

/-- The declared fields of each kind.  The operation of a call may have a number as its tag. -/
def Kind.declared : Kind → List Field
  | append => Submission.declared .nameOrNumber
  | k => k.fieldNames.map fun name => { name }

/-- The schema of a call. -/
def schema : Schema :=
  .variant "call"
    (fun tag => (Value.variant? .name Kind.all Kind.tag tag).elim [] Kind.declared) <| by
    intro tag
    cases Value.variant? .name Kind.all Kind.tag tag with
    | none => exact List.nodup_singleton _
    | some k =>
      cases k with
      | append => change List.Nodup ("call" :: Submission.fieldNames); decide
      | _ => decide

/-- A call is read from its declared fields. -/
theorem ofFields?_congr {f g : Value.Fields} (k : Kind) (h : f.Agree k.declared g) :
    ofFields? f k = ofFields? g k := by
  cases k with
  | eventCreate =>
    rw [ofFields?, ofFields?, h.fits, h.required (i := 0) rfl, h.required (i := 1) rfl]
  | eventDestroy | eventHostReset =>
    rw [ofFields?, ofFields?, h.fits, h.required (i := 0) rfl]
  | append => rw [ofFields?, ofFields?, Submission.ofFields?_congr h]

/-- A call is read alike from values that say the same. -/
theorem ofValue?_of_alike {v w : Value} (h : Alike schema v w) : ofValue? v = ofValue? w := by
  refine h.read_tagged fun tag f g hagree => ?_
  cases hkind : Value.variant? .name Kind.all Kind.tag tag with
  | none => simp [hkind]
  | some k =>
    rw [hkind] at hagree
    simp [hkind, ofFields?_congr k hagree]

end Call

namespace Step

/-- The declared fields of each kind. -/
def Kind.declared (form : TagForm) : Kind → List Field
  | append =>
    [{ name := "operation", alike := Alike (Operation.schema form), refl := .refl },
     { name := "signal", default := some .null },
     { name := "waits", default := some (.list []) }]
  | k => k.fieldNames.map fun name => { name }

/-- The schema of a step whose operation has a tag of the given form. -/
def schema (form : TagForm) : Schema :=
  .variant "step"
    (fun tag => (Value.variant? .name Kind.all Kind.tag tag).elim [] (Kind.declared form)) <| by
    intro tag
    cases Value.variant? .name Kind.all Kind.tag tag with
    | none => exact List.nodup_singleton _
    | some k =>
      cases k with
      | append => change List.Nodup ("step" :: Kind.append.fieldNames); decide
      | _ => change List.Nodup ["step", "name"]; decide

/-- A step is read from its declared fields. -/
theorem ofFields?_congr {form : TagForm} {f g : Value.Fields} (k : Kind)
    (h : f.Agree (k.declared form) g) : ofFields? form f k = ofFields? form g k := by
  cases k with
  | append =>
    rw [ofFields?, ofFields?, h.fits,
      h.required_alike (i := 0) rfl fun _ _ => Operation.ofValue?_of_alike,
      h.optional (i := 1) (a := none) rfl rfl, h.optional (i := 2) (a := []) rfl rfl]
  | _ => rw [ofFields?, ofFields?, h.fits, h.required (i := 0) rfl]

/-- A step is read alike from values that say the same. -/
theorem ofValue?_of_alike {form : TagForm} {v w : Value} (h : Alike (schema form) v w) :
    ofValue? form v = ofValue? form w := by
  refine h.read_tagged fun tag f g hagree => ?_
  cases hkind : Value.variant? .name Kind.all Kind.tag tag with
  | none => simp [hkind]
  | some k =>
    rw [hkind] at hagree
    simp [hkind, ofFields?_congr k hagree]

end Step

namespace Scenario

/-- The declared fields of a scenario. -/
def declared (form : TagForm) : List Field :=
  [{ name := "name" },
   { name := "description", default := some (.string "") },
   { name := "steps", alike := AlikeList (Alike (Step.schema form)), refl := .refl }]

/-- The schema of a scenario whose operations have tags of the given form. -/
def schema (form : TagForm) : Schema :=
  .record (declared form) (by change List.Nodup fieldNames; decide)

/-- A scenario is read alike from values that say the same. -/
theorem ofValue?_of_alike {form : TagForm} {v w : Value} (h : Alike (schema form) v w) :
    ofValue? form v = ofValue? form w := by
  refine h.read_fields fun f g hagree => ?_
  rw [hagree.fits, hagree.required (i := 0) rfl, hagree.optional (i := 1) (a := "") rfl rfl,
    hagree.required_alike (i := 2) rfl fun _ _ h => h.list? fun _ _ => Step.ofValue?_of_alike]

end Scenario

/-! ## Calls that append -/

namespace Operation

/-- The value is a record whose kind is written as a number. -/
def Numbered (v : Value) : Prop := ∃ n f, v.tagged? "kind" = some (.integer n, f)

/-- A kind that is not a number is read in the same way wherever it stands. -/
theorem ofValue?_of_not_numbered {v : Value} (h : ¬ Numbered v) (form : TagForm) :
    ofValue? form v = ofValue? .name v := by
  rw [ofValue?, ofValue?]
  cases htagged : v.tagged? "kind" with
  | none => rfl
  | some p =>
    obtain ⟨tag, f⟩ := p
    cases tag with
    | integer n => exact absurd ⟨n, f, htagged⟩ h
    | _ => rfl

/-- An operation whose tag is a number is not read where only names will do. -/
theorem ofValue?_of_numbered {v : Value} (h : Numbered v) : ofValue? .name v = none := by
  obtain ⟨n, f, htagged⟩ := h
  rw [ofValue?, htagged]
  rfl

end Operation

namespace Submission

/-- Where the tag of the operation is no number, a submission is read alike in both forms. -/
theorem ofFields?_of_not_numbered {f : Value.Fields}
    (h : ∀ v, f.get? 1 "operation" = some v → ¬ Operation.Numbered v) (form : TagForm) :
    ofFields? form f = ofFields? .name f := by
  have hoperation : f.required 1 "operation" (Operation.ofValue? form) =
      f.required 1 "operation" (Operation.ofValue? .name) := by
    rw [Value.Fields.required, Value.Fields.required]
    cases hget : f.get? 1 "operation" with
    | none => rfl
    | some v => exact Operation.ofValue?_of_not_numbered (h v hget) form
  rw [ofFields?, ofFields?, hoperation]

/-- What is read where kinds have names only is read everywhere. -/
theorem ofFields?_of_name {f : Value.Fields} {s : Submission} (h : ofFields? .name f = some s)
    (form : TagForm) : ofFields? form f = some s := by
  rw [ofFields?_of_not_numbered (fun v hv hnumbered => ?_), h]
  -- The operation is read after the command list.
  obtain ⟨_, -, h⟩ := Option.bind_eq_some_iff.1 h
  obtain ⟨_, -, h⟩ := Option.bind_eq_some_iff.1 h
  obtain ⟨operation, hoperation, -⟩ := Option.bind_eq_some_iff.1 h
  rw [Value.Fields.required, hv, Option.bind_some,
    Operation.ofValue?_of_numbered hnumbered] at hoperation
  cases hoperation

end Submission

namespace Call

/-- The fields of a call that appends are read as those of its submission, in which the kind of the
operation may be a number. -/
theorem ofValue?_append {f : List (String × Value)}
    (h : f.lookup "call" = some (.string "append")) :
    ofValue? (.object f) = (Submission.ofValue? .nameOrNumber (.object f)).map append := by
  have hkind : Value.variant? .name Kind.all Kind.tag (.string "append") = some .append := by decide
  rw [ofValue?, Value.tagged?, h]
  show (do ofFields? (.named f) (← Value.variant? .name Kind.all Kind.tag (.string "append"))) = _
  rw [hkind]
  show (do return append (← Submission.ofFields? .nameOrNumber (.named f))) =
    (Submission.ofFields? .nameOrNumber (.named f)).map append
  cases Submission.ofFields? .nameOrNumber (.named f) <;> rfl

/-- The one difference: a number is read as the kind of an operation in a call alone. -/
theorem numbered_kind_read_in_call_only :
    ofValue? (.object [("call", .string "append"), ("operation", .object [("dst", .integer 1),
        ("kind", .integer 0), ("size", .integer 3), ("src", .integer 2)])]) =
      some (append { operation := .memoryCopy 1 2 3 }) ∧
    Submission.ofValue? .name (.object [("call", .string "append"), ("operation",
        .object [("dst", .integer 1), ("kind", .integer 0), ("size", .integer 3),
          ("src", .integer 2)])]) = none :=
  ⟨rfl, rfl⟩

end Call

/-! ## The whole format -/

/-- Every reader depends on the declared fields alone: on neither their order nor other fields, and
with its default in the place of a field that is left out, at every level.  A call that appends is
read, or refused, as its submission is, but for an operation whose kind is written as a number. -/
theorem reading_depends_on_declared_fields (form : TagForm) :
    ReadsBy (Operation.schema form) (Operation.ofValue? form) ∧
    ReadsBy (Submission.schema form) (Submission.ofValue? form) ∧
    ReadsBy Call.schema Call.ofValue? ∧
    ReadsBy (Step.schema form) (Step.ofValue? form) ∧
    ReadsBy (Scenario.schema form) (Scenario.ofValue? form) ∧
    ∀ f : List (String × Value), f.lookup "call" = some (.string "append") →
      (∀ s, Submission.ofValue? .name (.object f) = some s →
        Call.ofValue? (.object f) = some (.append s)) ∧
      ((∀ v, f.lookup "operation" = some v → ¬ Operation.Numbered v) →
        Call.ofValue? (.object f) = (Submission.ofValue? .name (.object f)).map .append) ∧
      Call.ofValue? (.object f) =
        (Submission.ofValue? .nameOrNumber (.object f)).map .append := by
  refine ⟨.of_alike fun _ _ => Operation.ofValue?_of_alike,
    .of_alike fun _ _ => Submission.ofValue?_of_alike, .of_alike fun _ _ => Call.ofValue?_of_alike,
    .of_alike fun _ _ => Step.ofValue?_of_alike, .of_alike fun _ _ => Scenario.ofValue?_of_alike,
    fun f hcall => ⟨fun s hs => ?succeeds, fun hkind => ?agrees, Call.ofValue?_append hcall⟩⟩
  case succeeds =>
    have hnumber : Submission.ofValue? .nameOrNumber (.object f) = some s :=
      Submission.ofFields?_of_name (f := .named f) hs .nameOrNumber
    rw [Call.ofValue?_append hcall, hnumber, Option.map_some]
  case agrees =>
    have hname : Submission.ofValue? .nameOrNumber (.object f) =
        Submission.ofValue? .name (.object f) :=
      Submission.ofFields?_of_not_numbered (f := .named f) hkind .nameOrNumber
    rw [Call.ofValue?_append hcall, hname]

/-- A scenario is read alike whether its fields, and those of its step and operation, are all given
in order, or rearranged among others with some left out. -/
theorem reading_of_rearranged_scenario :
    Scenario.ofValue? .name (.object [("name", .string "one"), ("description", .string ""),
        ("steps", .list [.object [("step", .string "append"),
          ("operation", .object [("kind", .string "barrier")]), ("signal", .null),
          ("waits", .list [])]])]) =
      Scenario.ofValue? .name (.object [("steps", .list [.object [("name", .integer 5),
          ("operation", .object [("dst", .null), ("kind", .string "barrier")]),
          ("step", .string "append")]]), ("author", .null), ("name", .string "one")]) ∧
    Call.ofValue? (.object [("operation", .object [("kind", .string "barrier")]),
        ("call", .string "append"), ("pool", .null)]) =
      some (.append { operation := .barrier }) ∧
    Call.ofValue? (.object [("call", .string "append")]) = none := by
  refine ⟨(reading_depends_on_declared_fields .name).2.2.2.2.1.alike _ _ ?_,
    ((reading_depends_on_declared_fields .name).2.2.2.2.2 _ rfl).1 _ rfl,
    ((reading_depends_on_declared_fields .name).2.2.2.2.2 _ rfl).2.1 fun _ h => nomatch h⟩
  have hoperation : Alike (Operation.schema .name) (.object [("kind", .string "barrier")])
      (.object [("dst", .null), ("kind", .string "barrier")]) := by
    refine .fields rfl rfl (by simp [Value.Fields.Distinct]) (by simp [Value.Fields.Distinct]) ?_
    exact List.forall_mem_cons.2 ⟨.some rfl, List.forall_mem_nil _⟩
  have hstep : Alike (Step.schema .name)
      (.object [("step", .string "append"), ("operation", .object [("kind", .string "barrier")]),
        ("signal", .null), ("waits", .list [])])
      (.object [("name", .integer 5), ("operation", .object [("dst", .null),
        ("kind", .string "barrier")]), ("step", .string "append")]) := by
    refine .fields rfl rfl (by simp [Value.Fields.Distinct]) (by simp [Value.Fields.Distinct]) ?_
    refine List.forall_mem_cons.2 ⟨.some rfl, ?_⟩
    exact List.forall_mem_cons.2 ⟨.some hoperation, List.forall_mem_cons.2 ⟨.some rfl,
      List.forall_mem_cons.2 ⟨.some rfl, List.forall_mem_nil _⟩⟩⟩
  refine .fields rfl rfl (by simp [Value.Fields.Distinct]) (by simp [Value.Fields.Distinct]) ?_
  exact List.forall_mem_cons.2 ⟨.some rfl, List.forall_mem_cons.2 ⟨.some rfl,
    List.forall_mem_cons.2 ⟨.some (.elements (.cons hstep .nil)), List.forall_mem_nil _⟩⟩⟩

end WaitFor
