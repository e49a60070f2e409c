import WaitFor.Proofs.Text.Numerals
import WaitFor.Call

/-! # Descriptions can be read in one way only

A description quotes nothing, and the name of a kernel in its middle may be any text, also one that
imitates what a description goes on with.  Still no two submissions have the same description,
`Submission.text_inj`.  It is read from both ends towards the name: from the left the entry point,
the command list and the label; from the right the waits, the signal and the groups.  What is next
is always told from the run of characters before it that numerals or labels are written with, since
such a run ends at the first other character (`Text.run_inj`, `Text.last_run_inj`).
-/

namespace WaitFor

/-! ## Runs of characters -/

namespace Text

variable {α : Type} {p : α → Bool} {xs ys rest rest' : List α} {d e : α}

/-- A run of elements of one kind in front of an element of another kind is told from all that
follows. -/
theorem run_inj (hxs : ∀ c ∈ xs, p c = true) (hys : ∀ c ∈ ys, p c = true) (hd : p d = false)
    (he : p e = false) :
    xs ++ d :: rest = ys ++ e :: rest' ↔ xs = ys ∧ d = e ∧ rest = rest' := by
  induction xs generalizing ys with
  | nil =>
    cases ys with
    | nil => simp
    | cons y ys =>
      have hdy : d ≠ y := fun h => by simp [h, hys y List.mem_cons_self] at hd
      simp [hdy]
  | cons x xs ih =>
    obtain ⟨hx, hxs⟩ := List.forall_mem_cons.1 hxs
    cases ys with
    | nil =>
      have hxe : x ≠ e := fun h => by simp [← h, hx] at he
      simp [hxe]
    | cons y ys => simp [ih hxs (List.forall_mem_cons.1 hys).2, and_assoc]

/-- A run of elements of one kind behind an element of another kind is told from all before. -/
theorem last_run_inj (hxs : ∀ c ∈ xs, p c = true) (hys : ∀ c ∈ ys, p c = true) (hd : p d = false)
    (he : p e = false) :
    rest ++ d :: xs = rest' ++ e :: ys ↔ rest = rest' ∧ d = e ∧ xs = ys := by
  have h : xs.reverse ++ d :: rest.reverse = ys.reverse ++ e :: rest'.reverse ↔
      xs.reverse = ys.reverse ∧ d = e ∧ rest.reverse = rest'.reverse :=
    run_inj (by simpa using hxs) (by simpa using hys) hd he
  rw [← List.reverse_inj, List.reverse_append, List.reverse_append, List.reverse_cons,
    List.reverse_cons, List.append_assoc, List.append_assoc, List.singleton_append,
    List.singleton_append, h, List.reverse_inj, List.reverse_inj]
  tauto

/-- A numeral that a closing parenthesis ends is told from what stands before it. -/
theorem last_numeral_inj {front front' last last' : List Char} {d e : Char}
    (hlast : ∀ c ∈ last, isNumeral c = true) (hlast' : ∀ c ∈ last', isNumeral c = true)
    (hd : (isNumeral d || d == ')') = false) (he : (isNumeral e || e == ')') = false) :
    front ++ d :: (last ++ [')']) = front' ++ e :: (last' ++ [')']) ↔
      front = front' ∧ d = e ∧ last = last' := by
  have hclass : ∀ xs : List Char, (∀ c ∈ xs, isNumeral c = true) →
      ∀ c ∈ xs ++ [')'], (isNumeral c || c == ')') = true := by
    intro xs hxs c hc
    rcases List.mem_append.1 hc with hc | hc
    · rw [hxs c hc, Bool.true_or]
    · rw [List.mem_singleton.1 hc]
      rfl
  rw [last_run_inj (hclass last hlast) (hclass last' hlast') hd he, List.append_cancel_right_eq]

/-- A word behind a mark and in parentheses is told from what follows. -/
theorem parenthesized_inj {mark : String} {a b : UInt64} {rest rest' : List Char} :
    (mark ++ hex a.toNat ++ ")").toList ++ rest = (mark ++ hex b.toNat ++ ")").toList ++ rest' ↔
      a = b ∧ rest = rest' := by
  have hclose : (")" : String).toList = [')'] := rfl
  rw [String.toList_append, String.toList_append, String.toList_append, String.toList_append,
    hclose, List.append_assoc, List.append_assoc, List.append_assoc, List.append_assoc,
    List.append_cancel_left_eq, List.singleton_append, List.singleton_append,
    run_inj (fun _ => isNumeral_of_mem_hex) (fun _ => isNumeral_of_mem_hex) rfl rfl,
    String.toList_inj, hex_inj, UInt64.toNat_inj]
  simp

end Text

namespace EventHandle

theorem toList_text (h : EventHandle) :
    h.text.toList = "Event".toList ++ '(' :: ((Text.hex h.bits.toNat).toList ++ [')']) := by
  rw [text, String.toList_append, String.toList_append, List.append_assoc]
  rfl

/-- The text of an event tells where it ends. -/
theorem text_append_inj {a b : EventHandle} {rest rest' : List Char} :
    a.text.toList ++ rest = b.text.toList ++ rest' ↔ a = b ∧ rest = rest' := by
  rw [text, text, Text.parenthesized_inj, EventHandle.mk.injEq]

/-- The texts of handles one after the other, each behind the mark that separates it from the one
before. -/
def separated (events : List EventHandle) : List Char :=
  events.flatMap fun event => ", ".toList ++ event.text.toList

/-- A list of events can be told from its text. -/
theorem separated_inj {as bs : List EventHandle} : separated as = separated bs ↔ as = bs := by
  induction as generalizing bs with
  | nil => cases bs <;> simp [separated]
  | cons a as ih =>
    cases bs with
    | nil => simp [separated]
    | cons b bs =>
      rw [separated, separated, List.flatMap_cons, List.flatMap_cons, List.append_assoc,
        List.append_assoc, List.append_cancel_left_eq, text_append_inj, ← separated, ← separated,
        ih, List.cons.injEq]

theorem toList_intercalate_text (event : EventHandle) (events : List EventHandle) :
    (", ".intercalate ((event :: events).map text)).toList =
      event.text.toList ++ separated events := by
  rw [String.toList_intercalate, List.map_map]
  induction events generalizing event with
  | nil => simp [separated, List.intercalate]
  | cons next events ih =>
    rw [List.map_cons, List.map_cons, List.intercalate_cons_cons, ← List.map_cons, ih,
      separated, separated, List.flatMap_cons, List.append_assoc, List.append_assoc]
    rfl

/-- No handle is written with a bracket. -/
theorem bracket_not_mem_text (h : EventHandle) : '[' ∉ h.text.toList := by
  rw [toList_text]
  simp only [List.mem_append, List.mem_cons, List.not_mem_nil, or_false, not_or]
  refine ⟨by decide, by decide, fun hc => ?_, by decide⟩
  exact absurd (Text.isNumeral_of_mem_hex hc) (by decide)

/-- No bracket opens in a list of events. -/
theorem bracket_not_mem_append_separated (h : EventHandle) (events : List EventHandle) :
    '[' ∉ h.text.toList ++ separated events := by
  rw [List.mem_append, not_or, separated, List.mem_flatMap]
  refine ⟨bracket_not_mem_text h, ?_⟩
  rintro ⟨event, -, hc⟩
  rcases List.mem_append.1 hc with hc | hc
  · exact absurd hc (by decide)
  · exact bracket_not_mem_text event hc

end EventHandle

namespace Operation

/-- No two kinds share a label. -/
theorem Kind.label_inj {k l : Kind} (h : k.label = l.label) : k = l := by
  cases k <;> cases l <;> first | rfl | exact absurd h (by decide)

/-- What stands behind the label of an operation. -/
def enclosed (op : Operation) : List Char :=
  op.fieldsText.elim [] fun fields => '(' :: (fields.toList ++ [')'])

/-- The text of an operation is its label and what is enclosed. -/
theorem toList_text (op : Operation) : op.text.toList = op.kind.label.toList ++ op.enclosed := by
  rw [text, String.toList_append, enclosed]
  cases op.fieldsText with
  | none => rfl
  | some fields =>
    change _ ++ ("(" ++ fields ++ ")").toList = _
    rw [String.toList_append, String.toList_append]
    rfl

/-! ### Single fields -/

section Fields

variable {name rest rest' : String} {t u : String}

/-- A field that is not the last is told from the others, if its value is a numeral. -/
theorem field_append_inj (ht : ∀ c ∈ t.toList, Text.isNumeral c = true)
    (hu : ∀ c ∈ u.toList, Text.isNumeral c = true) :
    name ++ "=" ++ t ++ (", " ++ rest) = name ++ "=" ++ u ++ (", " ++ rest') ↔
      t = u ∧ rest = rest' := by
  have hsplit : ∀ x r : String, (x ++ (", " ++ r)).toList = x.toList ++ ',' :: ' ' :: r.toList :=
    fun x r => by rw [String.toList_append, String.toList_append]; rfl
  simp only [String.append_assoc, String.append_right_inj]
  rw [← String.toList_inj, hsplit, hsplit, Text.run_inj ht hu rfl rfl]
  simp [String.toList_inj]

/-- The text of an address tells where it ends. -/
theorem addressText_append_inj {a b : UInt64} :
    addressText name a ++ (", " ++ rest) = addressText name b ++ (", " ++ rest') ↔
      a = b ∧ rest = rest' := by
  rw [addressText, addressText, field_append_inj (fun _ => Text.isNumeral_of_mem_hex)
    (fun _ => Text.isNumeral_of_mem_hex), Text.hex_inj, UInt64.toNat_inj]

/-- The text of a number tells where it ends. -/
theorem numberText_append_inj {a b : Nat} :
    numberText name a ++ (", " ++ rest) = numberText name b ++ (", " ++ rest') ↔
      a = b ∧ rest = rest' := by
  rw [numberText, numberText, field_append_inj (fun _ => Text.isNumeral_of_mem_decimal)
    (fun _ => Text.isNumeral_of_mem_decimal), Text.decimal_inj]

/-- An address can be told from its text. -/
theorem addressText_inj {a b : UInt64} : addressText name a = addressText name b ↔ a = b := by
  rw [addressText, addressText, String.append_right_inj, Text.hex_inj, UInt64.toNat_inj]

/-- A number can be told from its text. -/
theorem numberText_inj {a b : Nat} : numberText name a = numberText name b ↔ a = b := by
  rw [numberText, numberText, String.append_right_inj, Text.decimal_inj]

end Fields

/-- The group counts of a launch, as in `64x1x1`. -/
def groupsText (g : GroupCount) : List Char :=
  (Text.decimal g.x.toNat).toList ++ 'x' :: ((Text.decimal g.y.toNat).toList ++
    'x' :: (Text.decimal g.z.toNat).toList)

theorem isNumeral_of_mem_groupsText {g : GroupCount} {c : Char} (hc : c ∈ groupsText g) :
    Text.isNumeral c = true := by
  simp only [groupsText, List.mem_append, List.mem_cons] at hc
  rcases hc with hc | rfl | hc | rfl | hc
  · exact Text.isNumeral_of_mem_decimal hc
  · rfl
  · exact Text.isNumeral_of_mem_decimal hc
  · rfl
  · exact Text.isNumeral_of_mem_decimal hc

/-- Group counts can be told from their text. -/
theorem groupsText_inj {g h : GroupCount} : groupsText g = groupsText h ↔ g = h := by
  have hdigit : ∀ w : UInt32, ∀ c ∈ (Text.decimal w.toNat).toList, c.isDigit = true :=
    fun _ _ => Text.isDigit_of_mem_decimal
  obtain ⟨x, y, z⟩ := g
  obtain ⟨x', y', z'⟩ := h
  rw [groupsText, groupsText, Text.run_inj (hdigit _) (hdigit _) rfl rfl,
    Text.run_inj (hdigit _) (hdigit _) rfl rfl]
  simp [String.toList_inj, Text.decimal_inj, UInt32.toNat_inj]

theorem toList_launchText (kernel : String) (g : GroupCount) :
    (launchText kernel g).toList =
      (kernel.toList ++ ", groups".toList) ++ '=' :: groupsText g := by
  simp only [launchText, String.toList_append, groupsText, List.append_assoc]
  rfl

/-- Whatever the name of a kernel is, its launch tells it from the groups. -/
theorem launchText_inj {kernel kernel' : String} {g h : GroupCount} :
    launchText kernel g = launchText kernel' h ↔ kernel = kernel' ∧ g = h := by
  rw [← String.toList_inj, toList_launchText, toList_launchText,
    Text.last_run_inj (fun _ => isNumeral_of_mem_groupsText)
      (fun _ => isNumeral_of_mem_groupsText) rfl rfl,
    List.append_cancel_right_eq, String.toList_inj, groupsText_inj]
  simp

/-! ### All fields of an operation -/

/-- The last thing in a text is a numeral behind an equals sign. -/
def EndsInNumeral (text : String) : Prop :=
  ∃ front last, text.toList = front ++ '=' :: last ∧ ∀ c ∈ last, Text.isNumeral c = true

/-- What stands before a text does not change its end. -/
theorem EndsInNumeral.append {text : String} (h : EndsInNumeral text) (before : String) :
    EndsInNumeral (before ++ text) := by
  obtain ⟨front, last, heq, hlast⟩ := h
  exact ⟨before.toList ++ front, last, by rw [String.toList_append, heq, List.append_assoc], hlast⟩

/-- An address ends in a numeral. -/
theorem endsInNumeral_addressText (name : String) (a : UInt64) :
    EndsInNumeral (addressText name a) := by
  refine ⟨name.toList, (Text.hex a.toNat).toList, ?_, fun _ => Text.isNumeral_of_mem_hex⟩
  rw [addressText, String.toList_append, String.toList_append, List.append_assoc]
  rfl

/-- A number ends in a numeral. -/
theorem endsInNumeral_numberText (name : String) (n : Nat) :
    EndsInNumeral (numberText name n) := by
  refine ⟨name.toList, (Text.decimal n).toList, ?_, fun _ => Text.isNumeral_of_mem_decimal⟩
  rw [numberText, String.toList_append, String.toList_append, List.append_assoc]
  rfl

/-- The text of a launch ends in the group counts. -/
theorem endsInNumeral_launchText (kernel : String) (g : GroupCount) :
    EndsInNumeral (launchText kernel g) :=
  ⟨_, _, toList_launchText kernel g, fun _ => isNumeral_of_mem_groupsText⟩

/-- Whatever fields an operation has, the last of them ends in a numeral. -/
theorem endsInNumeral_fieldsText {op : Operation} {fields : String}
    (h : op.fieldsText = some fields) : EndsInNumeral fields := by
  cases op <;> cases h
  case memoryCopy => exact (endsInNumeral_numberText _ _).append _
  case memoryFill => exact (endsInNumeral_numberText _ _).append _
  case memoryCopyRegion => exact (endsInNumeral_addressText _ _).append _
  case imageCopy => exact (endsInNumeral_addressText _ _).append _
  case launchKernel => exact endsInNumeral_launchText _ _
  case launchCooperativeKernel => exact endsInNumeral_launchText _ _
  case memoryRangesBarrier => exact endsInNumeral_numberText _ _
  case writeGlobalTimestamp => exact endsInNumeral_addressText _ _

/-- The fields determine the operation of a known kind. -/
theorem eq_of_fieldsText {op op' : Operation} (hkind : op.kind = op'.kind)
    (h : op.fieldsText = op'.fieldsText) : op = op' := by
  cases op <;> cases op' <;> first | rfl | cases hkind
  all_goals
    simp only [fieldsText, Option.some.injEq, String.append_assoc, addressText_append_inj,
      numberText_append_inj, addressText_inj, numberText_inj, launchText_inj, UInt64.toNat_inj,
      UInt32.toNat_inj] at h
    simp only [h]

/-- Operations of one kind can be told by what is enclosed. -/
theorem eq_of_enclosed {op op' : Operation} (hkind : op.kind = op'.kind)
    (h : op.enclosed = op'.enclosed) : op = op' := by
  refine eq_of_fieldsText hkind ?_
  rw [enclosed, enclosed] at h
  cases hf : op.fieldsText <;> cases hf' : op'.fieldsText <;> simp_all [String.toList_inj]

/-- What stands behind a label does not end as a signal does. -/
theorem enclosed_ne {op : Operation} {front last : List Char}
    (hlast : ∀ c ∈ last, Text.isNumeral c = true) :
    op.enclosed ≠ front ++ '(' :: (last ++ [')']) := by
  rw [enclosed]
  cases hf : op.fieldsText with
  | none => simp
  | some fields =>
    obtain ⟨before, numeral, heq, hnumeral⟩ := endsInNumeral_fieldsText hf
    intro h
    have h : ('(' :: before) ++ '=' :: (numeral ++ [')']) = front ++ '(' :: (last ++ [')']) := by
      simpa [heq] using h
    exact absurd ((Text.last_numeral_inj hnumeral hlast rfl rfl).1 h).2.1 (by decide)

end Operation

namespace Submission

variable {s t : Submission}

/-! ## Signals -/

theorem toList_signalText_of_none (h : s.signal = none) : s.signalText.toList = [] := by
  rw [signalText, h]
  rfl

theorem toList_signalText_of_some {event : EventHandle} (h : s.signal = some event) :
    s.signalText.toList = ", signals Event".toList ++
      '(' :: ((Text.hex event.bits.toNat).toList ++ [')']) := by
  rw [signalText, h]
  change (", signals " ++ event.text).toList = _
  rw [String.toList_append, event.toList_text]
  rfl

/-- Up to the waits, the text determines the operation of a known kind and the signal. -/
theorem enclosed_append_signalText_inj {op op' : Operation} (hkind : op.kind = op'.kind)
    (h : op.enclosed ++ s.signalText.toList = op'.enclosed ++ t.signalText.toList) :
    op = op' ∧ s.signal = t.signal := by
  have hhex : ∀ event : EventHandle, ∀ c ∈ (Text.hex event.bits.toNat).toList,
      Text.isNumeral c = true := fun _ _ => Text.isNumeral_of_mem_hex
  cases hs : s.signal with
  | none =>
    rw [toList_signalText_of_none hs, List.append_nil] at h
    cases ht : t.signal with
    | none =>
      rw [toList_signalText_of_none ht, List.append_nil] at h
      exact ⟨Operation.eq_of_enclosed hkind h, rfl⟩
    | some b =>
      rw [toList_signalText_of_some ht, ← List.append_assoc] at h
      exact absurd h (Operation.enclosed_ne (hhex b))
  | some a =>
    rw [toList_signalText_of_some hs, ← List.append_assoc] at h
    cases ht : t.signal with
    | none =>
      rw [toList_signalText_of_none ht, List.append_nil] at h
      exact absurd h.symm (Operation.enclosed_ne (hhex a))
    | some b =>
      rw [toList_signalText_of_some ht, ← List.append_assoc,
        Text.last_numeral_inj (hhex a) (hhex b) rfl rfl, List.append_cancel_right_eq,
        String.toList_inj, Text.hex_inj, UInt64.toNat_inj] at h
      exact ⟨Operation.eq_of_enclosed hkind h.1, congrArg (some ∘ EventHandle.mk) h.2.2⟩

/-! ## Waits -/

/-- An operation with its signal is told from the waits, since it does not end in a bracket. -/
theorem enclosed_append_signalText_ne (s : Submission) (op : Operation) (front : List Char) :
    op.enclosed ++ s.signalText.toList ≠ front ++ [']'] := by
  have hlast : ∀ xs : List Char, xs ++ [')'] ≠ front ++ [']'] := fun xs h =>
    absurd (List.append_inj' h rfl).2 (by decide)
  cases hs : s.signal with
  | none =>
    rw [toList_signalText_of_none hs, List.append_nil, Operation.enclosed]
    cases op.fieldsText with
    | none => simp
    | some fields => exact hlast ('(' :: fields.toList)
  | some event =>
    rw [toList_signalText_of_some hs, ← List.cons_append, ← List.append_assoc, ← List.append_assoc]
    exact hlast _

theorem toList_waitsText_of_nil (h : s.waits = []) : s.waitsText.toList = [] := by
  rw [waitsText, h]
  rfl

theorem toList_waitsText_of_cons {event : EventHandle} {events : List EventHandle}
    (h : s.waits = event :: events) :
    s.waitsText.toList = (", waits on ".toList ++
      '[' :: (event.text.toList ++ EventHandle.separated events)) ++ [']'] := by
  rw [waitsText, h]
  change (", waits on [" ++ ", ".intercalate ((event :: events).map _) ++ "]").toList = _
  rw [String.toList_append, String.toList_append, EventHandle.toList_intercalate_text]
  rfl

/-- Behind a text that does not end in a bracket, the waits are told from it. -/
theorem append_waitsText_inj {before before' : List Char} (hb : ∀ front, before ≠ front ++ [']'])
    (hb' : ∀ front, before' ≠ front ++ [']'])
    (h : before ++ s.waitsText.toList = before' ++ t.waitsText.toList) :
    before = before' ∧ s.waits = t.waits := by
  have hbracket : ∀ (a : EventHandle) as, ∀ c ∈ a.text.toList ++ EventHandle.separated as,
      decide (c ≠ '[') = true := fun a as c hc =>
    decide_eq_true fun h => a.bracket_not_mem_append_separated as (h ▸ hc)
  cases hs : s.waits with
  | nil =>
    rw [toList_waitsText_of_nil hs, List.append_nil] at h
    cases ht : t.waits with
    | nil =>
      rw [toList_waitsText_of_nil ht, List.append_nil] at h
      exact ⟨h, rfl⟩
    | cons b bs =>
      rw [toList_waitsText_of_cons ht, ← List.append_assoc] at h
      exact absurd h (hb _)
  | cons a as =>
    rw [toList_waitsText_of_cons hs, ← List.append_assoc] at h
    cases ht : t.waits with
    | nil =>
      rw [toList_waitsText_of_nil ht, List.append_nil] at h
      exact absurd h.symm (hb' _)
    | cons b bs =>
      simp only [toList_waitsText_of_cons ht, ← List.append_assoc,
        List.append_cancel_right_eq] at h
      rw [Text.last_run_inj (p := fun c => c ≠ '[') (hbracket a as) (hbracket b bs) rfl rfl,
        List.append_cancel_right_eq, EventHandle.text_append_inj, EventHandle.separated_inj] at h
      exact ⟨h.1, List.cons.injEq .. ▸ h.2.2⟩

/-! ## The whole description -/

/-- The entry point, the command list and the label, as a description begins with them, are told
from what follows. -/
theorem heading_inj {k l : Operation.Kind} {a b : CommandListHandle} {rest rest' : List Char}
    (h : k.label.toList ++ (" on ".toList ++ (a.text.toList ++ (": ".toList ++
        (k.label.toList ++ rest)))) =
      l.label.toList ++ (" on ".toList ++ (b.text.toList ++ (": ".toList ++
        (l.label.toList ++ rest'))))) :
    k = l ∧ a = b ∧ rest = rest' := by
  have hlabel : ∀ k : Operation.Kind, ∀ c ∈ k.label.toList, decide (c ≠ ' ') = true := by
    intro k
    have hall : (k.label.toList.all fun c => decide (c ≠ ' ')) = true := by cases k <;> rfl
    exact List.all_eq_true.1 hall
  have hblank : ∀ cs : List Char, " on ".toList ++ cs = ' ' :: ("on ".toList ++ cs) := fun _ => rfl
  rw [hblank, hblank, Text.run_inj (hlabel k) (hlabel l) rfl rfl, String.toList_inj] at h
  obtain ⟨hkl, -, h⟩ := h
  cases Operation.Kind.label_inj hkl
  rw [List.append_cancel_left_eq, CommandListHandle.text, CommandListHandle.text,
    Text.parenthesized_inj, List.append_cancel_left_eq, List.append_cancel_left_eq] at h
  exact ⟨rfl, congrArg CommandListHandle.mk h.1, h.2⟩

/-- The text of a submission, part by part. -/
theorem toList_text (s : Submission) :
    s.text.toList = "zeCommandListAppend".toList ++ (s.operation.kind.label.toList ++
      (" on ".toList ++ (s.commandList.text.toList ++ (": ".toList ++
        (s.operation.kind.label.toList ++ (s.operation.enclosed ++ s.signalText.toList ++
          s.waitsText.toList)))))) := by
  -- The parts are variables here, lest a rewrite should look into the characters of a literal.
  have happend : ∀ (a b c d e f g h : String) (label enclosed : List Char),
      f.toList = label ++ enclosed → (a ++ b ++ c ++ d ++ e ++ f ++ g ++ h).toList =
      a.toList ++ (b.toList ++ (c.toList ++ (d.toList ++ (e.toList ++ (label ++
        (enclosed ++ g.toList ++ h.toList)))))) := by
    intro a b c d e f g h label enclosed hf
    simp only [String.toList_append, hf, List.append_assoc]
  exact happend _ _ _ _ _ _ _ _ _ _ s.operation.toList_text

/-- No two submissions have the same description. -/
theorem text_inj {s t : Submission} : s.text = t.text ↔ s = t := by
  refine ⟨fun h => ?_, fun h => h ▸ rfl⟩
  have h := (toList_text s).symm.trans ((congrArg String.toList h).trans (toList_text t))
  rw [List.append_cancel_left_eq] at h
  obtain ⟨hkind, hlist, h⟩ := heading_inj h
  obtain ⟨h, hwaits⟩ := append_waitsText_inj (enclosed_append_signalText_ne s s.operation)
    (enclosed_append_signalText_ne t t.operation) h
  obtain ⟨hoperation, hsignal⟩ := enclosed_append_signalText_inj hkind h
  cases s
  cases t
  cases hlist
  cases hoperation
  cases hsignal
  cases hwaits
  rfl

end Submission

end WaitFor
