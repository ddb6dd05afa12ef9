import Retention.Json
import Retention.Proofs.Numerals

/-!
# Documents and their written forms

A text writes a document if it is what the grammar of JSON makes of it, with blanks
between its parts at will and with any way of escaping texts (`Json.Written`). No text
writes two documents, as long as texts are escaped in different ways: what is written
of a document tells where it ends, unless it is a number and digits follow, so lists
and records can be taken apart item by item.

* `Json.Escaping`: a way of escaping texts.
* `Json.Delimited`: written items that can be told apart, whatever follows them.
* `Json.delimited_written`: every document is such an item.
* `Json.Written.unique`: no text writes two documents.
* `Json.written_pretty`: the written form of a document writes it.
-/

namespace Retention.Json

/-! ## The grammar -/

/-- The white space of documents. -/
def isBlank (c : Char) : Bool := c == ' ' || c == '\n' || c == '\r' || c == '\t'

/-- The characters that lists and records end with. -/
def isClosing (c : Char) : Bool := c == ']' || c == '\x7d'

/-- A text that is white space only. -/
def Blank (w : List Char) : Prop := ∀ c ∈ w, isBlank c = true

/-- What stands between two quotes: no quote, and no backslash but in front of the
character that it escapes. -/
inductive Body : List Char → Prop where
  | nil : Body []
  | plain {c : Char} {rest : List Char} (quote : c ≠ '"') (backslash : c ≠ '\\')
      (more : Body rest) : Body (c :: rest)
  | escaped {c : Char} {rest : List Char} (more : Body rest) : Body ('\\' :: c :: rest)

/-- A way of writing texts between quotes, in which different texts look different. -/
structure Escaping (escape : String → List Char) : Prop where
  body : ∀ s, Body (escape s)
  injective : ∀ s s', escape s = escape s' → s = s'

/-- An escaped text between its quotes. -/
def quoted (body : List Char) : List Char := '"' :: (body ++ ['"'])

section Layout

variable {α : Type} (Writes : α → List Char → Prop)

/-- The items after the first, and the end of a list or a record. -/
inductive Following (closing : Char) : List α → List Char → Prop where
  | nil {w : List Char} (blank : Blank w) : Following closing [] (w ++ [closing])
  | cons {w w' t tail : List Char} {a : α} {rest : List α} (blank : Blank w) (blank' : Blank w')
      (item : Writes a t) (more : Following closing rest tail) :
      Following closing (a :: rest) (w ++ ',' :: (w' ++ (t ++ tail)))

/-- Items between two delimiters, with commas between them. -/
inductive Enclosed (opening closing : Char) : List α → List Char → Prop where
  | nil {w : List Char} (blank : Blank w) : Enclosed opening closing [] (opening :: (w ++ [closing]))
  | cons {w t tail : List Char} {a : α} {rest : List α} (blank : Blank w) (item : Writes a t)
      (more : Following Writes closing rest tail) :
      Enclosed opening closing (a :: rest) (opening :: (w ++ (t ++ tail)))

end Layout

/-- A field of a record: its name, a colon and its value. -/
inductive Field (escape : String → List Char) (Writes : Json → List Char → Prop) :
    String × Json → List Char → Prop where
  | mk {name : String} {value : Json} {w w' t : List Char} (blank : Blank w) (blank' : Blank w')
      (item : Writes value t) :
      Field escape Writes (name, value) (quoted (escape name) ++ (w ++ ':' :: (w' ++ t)))

/-- A text writes a document. -/
inductive Written (escape : String → List Char) : Json → List Char → Prop where
  | null : Written escape null "null".toList
  | bool (b : Bool) : Written escape (bool b) (if b then "true" else "false").toList
  | number (n : Nat) : Written escape (number n) (Nat.toDigits 10 n)
  | text (s : String) : Written escape (text s) (quoted (escape s))
  | list {ds : List Json} {t : List Char} (items : Enclosed (Written escape) '[' ']' ds t) :
      Written escape (list ds) t
  | record {fs : List (String × Json)} {t : List Char}
      (fields : Enclosed (Field escape (Written escape)) '\x7b' '\x7d' fs t) :
      Written escape (record fs) t

/-! ## Runs of characters -/

/-- A text that does not go on with a character of the kind. -/
def Stops (kind : Char → Bool) (rest : List Char) : Prop :=
  ∀ c, rest.head? = some c → kind c = false

theorem stops_nil (kind : Char → Bool) : Stops kind [] := nofun

theorem stops_cons {kind : Char → Bool} {c : Char} {rest : List Char} (hc : kind c = false) :
    Stops kind (c :: rest) := fun _ h => Option.some.inj h ▸ hc

theorem span_append {kind : Char → Bool} {w rest : List Char} (hw : ∀ c ∈ w, kind c = true)
    (hrest : Stops kind rest) :
    (w ++ rest).takeWhile kind = w ∧ (w ++ rest).dropWhile kind = rest := by
  rw [List.takeWhile_append_of_pos hw, List.dropWhile_append_of_pos hw]
  cases rest with
  | nil => exact ⟨List.append_nil w, rfl⟩
  | cons c rest =>
    have hc : kind c = false := hrest c rfl
    rw [List.takeWhile_cons, List.dropWhile_cons, hc]
    exact ⟨List.append_nil w, rfl⟩

/-- A run of characters of one kind can be told from what follows it. -/
theorem span_append_inj {kind : Char → Bool} {w w' rest rest' : List Char}
    (hw : ∀ c ∈ w, kind c = true) (hw' : ∀ c ∈ w', kind c = true) (hrest : Stops kind rest)
    (hrest' : Stops kind rest') (h : w ++ rest = w' ++ rest') : w = w' ∧ rest = rest' := by
  obtain ⟨htake, hdrop⟩ := span_append hw hrest
  obtain ⟨htake', hdrop'⟩ := span_append hw' hrest'
  rw [h] at htake hdrop
  exact ⟨htake.symm.trans htake', hdrop.symm.trans hdrop'⟩

/-- What follows white space is the same if it is not white space itself. -/
theorem blank_append_inj {w w' rest rest' : List Char} (hw : Blank w) (hw' : Blank w')
    (hrest : Stops isBlank rest) (hrest' : Stops isBlank rest') (h : w ++ rest = w' ++ rest') :
    rest = rest' :=
  (span_append_inj hw hw' hrest hrest' h).2

theorem blank_cons_append_inj {w w' rest rest' : List Char} {c c' : Char} (hw : Blank w)
    (hw' : Blank w') (hc : isBlank c = false) (hc' : isBlank c' = false)
    (h : w ++ c :: rest = w' ++ c' :: rest') : c = c' ∧ rest = rest' :=
  List.cons.inj (blank_append_inj hw hw' (stops_cons hc) (stops_cons hc') h)

theorem isDigit_of_mem_numeral {n : Nat} {c : Char} (hc : c ∈ Nat.toDigits 10 n) :
    c.isDigit = true := Nat.isDigit_of_mem_toDigits (by decide) (Nat.le_refl 10) hc

theorem isDigit_of_isBlank {c : Char} (h : isBlank c = true) : c.isDigit = false := by
  simp only [isBlank, Bool.or_eq_true, beq_iff_eq] at h
  rcases h with ((rfl | rfl) | rfl) | rfl <;> decide

/-! ## Texts -/

/-- What stands between two quotes ends with the second. -/
theorem Body.append_quote_inj {b b' r s : List Char} (hb : Body b) (hb' : Body b')
    (h : b ++ '"' :: r = b' ++ '"' :: s) : b = b' ∧ r = s := by
  induction hb generalizing b' with
  | nil =>
    cases hb' with
    | nil => exact ⟨rfl, (List.cons.inj h).2⟩
    | plain quote _ _ => exact absurd (List.cons.inj h).1.symm quote
    | escaped _ => exact absurd (List.cons.inj h).1 (by decide)
  | plain quote backslash _ ih =>
    cases hb' with
    | nil => exact absurd (List.cons.inj h).1 quote
    | plain _ _ more =>
      obtain ⟨rfl, hrest⟩ := List.cons.inj h
      obtain ⟨rfl, rfl⟩ := ih more hrest
      exact ⟨rfl, rfl⟩
    | escaped _ => exact absurd (List.cons.inj h).1 backslash
  | escaped _ ih =>
    cases hb' with
    | nil => exact absurd (List.cons.inj h).1 (by decide)
    | plain _ backslash _ => exact absurd (List.cons.inj h).1.symm backslash
    | escaped more =>
      obtain ⟨rfl, hrest⟩ := List.cons.inj (List.cons.inj h).2
      obtain ⟨rfl, rfl⟩ := ih more hrest
      exact ⟨rfl, rfl⟩

variable {escape : String → List Char}

theorem Escaping.quoted_append_inj (hescape : Escaping escape) {text text' : String}
    {r s : List Char} (h : quoted (escape text) ++ r = quoted (escape text') ++ s) :
    text = text' ∧ r = s := by
  simp only [quoted, List.cons_append, List.append_assoc, List.cons.injEq, true_and,
    List.nil_append] at h
  obtain ⟨htext, rfl⟩ := (hescape.body text).append_quote_inj (hescape.body text') h
  exact ⟨hescape.injective text text' htext, rfl⟩

/-! ## Items that can be told apart -/

/-- An item whose texts differ from those of every other one, and end where they end,
whatever follows but a digit. -/
def Delimited {α : Type} (Writes : α → List Char → Prop) (a : α) : Prop :=
  ∀ b t t' r s, Writes a t → Writes b t' → Stops Char.isDigit r → Stops Char.isDigit s →
    t ++ r = t' ++ s → a = b ∧ r = s

/-- Every text begins with a character of its own: neither white space nor the end of
what the item is in. -/
def Solid {α : Type} (Writes : α → List Char → Prop) : Prop :=
  ∀ a t, Writes a t → ∃ c rest, t = c :: rest ∧ isBlank c = false ∧ isClosing c = false

theorem Solid.stops {α : Type} {Writes : α → List Char → Prop} (h : Solid Writes) {a : α}
    {t : List Char} (ht : Writes a t) (r : List Char) : Stops isBlank (t ++ r) := by
  obtain ⟨c, rest, rfl, hc, -⟩ := h a t ht
  exact stops_cons hc

theorem isClosing_cases {c : Char} (h : isClosing c = true) :
    c.isDigit = false ∧ isBlank c = false ∧ c ≠ ',' := by
  simp only [isClosing, Bool.or_eq_true, beq_iff_eq] at h
  rcases h with rfl | rfl <;> decide

section Layout

variable {α : Type} {Writes : α → List Char → Prop} {opening closing : Char}

theorem stops_blank_append {w rest : List Char} (hw : Blank w) (hrest : Stops Char.isDigit rest) :
    Stops Char.isDigit (w ++ rest) := by
  cases w with
  | nil => exact hrest
  | cons c w => exact stops_cons (isDigit_of_isBlank (hw c List.mem_cons_self))

/-- No digit follows an item. -/
theorem Following.stops {items : List α} {t : List Char} (h : Following Writes closing items t)
    (hclosing : isClosing closing = true) (r : List Char) : Stops Char.isDigit (t ++ r) := by
  cases h with
  | nil blank =>
    rw [List.append_assoc]
    exact stops_blank_append blank (stops_cons (isClosing_cases hclosing).1)
  | cons blank _ _ _ =>
    rw [List.append_assoc]
    exact stops_blank_append blank (stops_cons (by decide))

/-- An item and what follows it can be told apart. -/
theorem Following.item_append_inj {a a' : α} {w w' t t' tail tail' r s : List Char}
    {rest rest' : List α} (hclosing : isClosing closing = true) (hsolid : Solid Writes)
    (ha : Delimited Writes a) (hw : Blank w) (hw' : Blank w') (ht : Writes a t) (ht' : Writes a' t')
    (htail : Following Writes closing rest tail) (htail' : Following Writes closing rest' tail')
    (h : w ++ (t ++ tail) ++ r = w' ++ (t' ++ tail') ++ s) :
    a = a' ∧ tail ++ r = tail' ++ s := by
  simp only [List.append_assoc] at h
  exact ha a' t t' _ _ ht ht' (htail.stops hclosing r) (htail'.stops hclosing s)
    (blank_append_inj hw hw' (hsolid.stops ht _) (hsolid.stops ht' _) h)

theorem Following.append_inj {items items' : List α} {t t' r s : List Char}
    (hclosing : isClosing closing = true) (hsolid : Solid Writes) (hitems : ∀ a ∈ items, Delimited Writes a)
    (ht : Following Writes closing items t) (ht' : Following Writes closing items' t')
    (h : t ++ r = t' ++ s) : items = items' ∧ r = s := by
  obtain ⟨-, hblank, hcomma⟩ := isClosing_cases hclosing
  induction ht generalizing items' t' with
  | nil blank =>
    cases ht' with
    | nil blank' =>
      rw [List.append_assoc, List.append_assoc] at h
      exact ⟨rfl, (blank_cons_append_inj blank blank' hblank hblank h).2⟩
    | cons blank' _ _ _ =>
      rw [List.append_assoc, List.append_assoc] at h
      exact absurd (blank_cons_append_inj blank blank' hblank (by decide) h).1 hcomma
  | cons blank blankItem item more ih =>
    cases ht' with
    | nil blank' =>
      rw [List.append_assoc, List.append_assoc] at h
      exact absurd (blank_cons_append_inj blank blank' (by decide) hblank h).1.symm hcomma
    | cons blank' blankItem' item' more' =>
      rw [List.append_assoc, List.append_assoc] at h
      obtain ⟨-, hrest⟩ := blank_cons_append_inj blank blank' (by decide) (by decide) h
      obtain ⟨rfl, hrest⟩ := item_append_inj hclosing hsolid (hitems _ List.mem_cons_self)
        blankItem blankItem' item item' more more' hrest
      obtain ⟨rfl, rfl⟩ := ih (fun b hb => hitems b (List.mem_cons_of_mem _ hb)) more' hrest
      exact ⟨rfl, rfl⟩

/-- Lists and records of delimited items can be told apart, whatever follows them. -/
theorem Enclosed.append_inj {items items' : List α} {t t' r s : List Char}
    (hclosing : isClosing closing = true) (hsolid : Solid Writes)
    (hitems : ∀ a ∈ items, Delimited Writes a) (ht : Enclosed Writes opening closing items t)
    (ht' : Enclosed Writes opening closing items' t') (h : t ++ r = t' ++ s) :
    items = items' ∧ r = s := by
  obtain ⟨-, hblank, -⟩ := isClosing_cases hclosing
  -- An empty list ends where the other one has an item.
  have hempty {w w' t tail r s : List Char} {a : α} (hw : Blank w) (hw' : Blank w')
      (item : Writes a t) (h : w ++ [closing] ++ r = w' ++ (t ++ tail) ++ s) : False := by
    obtain ⟨c, rest, rfl, hc, hopens⟩ := hsolid a t item
    rw [List.append_assoc, List.append_assoc] at h
    obtain ⟨rfl, -⟩ := blank_cons_append_inj hw hw' hblank hc h
    rw [hclosing] at hopens
    cases hopens
  cases ht with
  | nil blank =>
    cases ht' with
    | nil blank' =>
      simp only [List.cons_append, List.append_assoc, List.cons.injEq, true_and] at h
      exact ⟨rfl, (blank_cons_append_inj blank blank' hblank hblank h).2⟩
    | cons blank' item' _ => exact (hempty blank blank' item' (List.cons.inj h).2).elim
  | cons blank item more =>
    cases ht' with
    | nil blank' => exact (hempty blank' blank item (List.cons.inj h).2.symm).elim
    | cons blank' item' more' =>
      obtain ⟨rfl, hrest⟩ := more.item_append_inj hclosing hsolid (hitems _ List.mem_cons_self)
        blank blank' item item' more' (List.cons.inj h).2
      obtain ⟨rfl, rfl⟩ := more.append_inj hclosing hsolid
        (fun b hb => hitems b (List.mem_cons_of_mem _ hb)) more' hrest
      exact ⟨rfl, rfl⟩

end Layout

/-! ## Documents -/

/-- What holds of a document if it holds of all its items, holds of every document. -/
@[elab_as_elim]
theorem induct {motive : Json → Prop} (null : motive null) (bool : ∀ b, motive (bool b))
    (number : ∀ n, motive (number n)) (text : ∀ s, motive (text s))
    (list : ∀ items, (∀ item ∈ items, motive item) → motive (list items))
    (record : ∀ fields, (∀ field ∈ fields, motive field.2) → motive (record fields)) (d : Json) :
    motive d :=
  @Json.rec motive (fun items => ∀ item ∈ items, motive item)
    (fun fields => ∀ field ∈ fields, motive field.2) (fun field => motive field.2)
    null bool number text list record
    (fun _ h => nomatch h)
    (fun _ _ hitem hrest _ h => (List.mem_cons.mp h).elim (fun heq => heq ▸ hitem) (hrest _))
    (fun _ h => nomatch h)
    (fun _ _ hfield hrest _ h => (List.mem_cons.mp h).elim (fun heq => heq ▸ hfield) (hrest _))
    (fun _ _ hvalue => hvalue) d

/-- The character that documents of a kind begin with; all numbers and both booleans
have one. -/
def opening : Json → Char
  | null => 'n'
  | bool _ => 't'
  | number _ => '0'
  | text _ => '"'
  | list _ => '['
  | record _ => '\x7b'

/-- The character that stands for a first one. -/
def opens (c : Char) : Char := if c.isDigit then '0' else if c = 'f' then 't' else c

theorem Written.exists_cons {d : Json} {t : List Char} (h : Written escape d t) :
    ∃ c rest, t = c :: rest ∧ opens c = d.opening := by
  cases h with
  | null => exact ⟨_, _, rfl, rfl⟩
  | bool b => cases b <;> exact ⟨_, _, rfl, rfl⟩
  | number n =>
    obtain ⟨c, rest, hdigits⟩ :=
      List.exists_cons_of_ne_nil (Nat.toDigits_ne_nil : Nat.toDigits 10 n ≠ [])
    have hc : c.isDigit = true := isDigit_of_mem_numeral (hdigits ▸ List.mem_cons_self)
    exact ⟨c, rest, hdigits, if_pos hc⟩
  | text s => exact ⟨_, _, rfl, rfl⟩
  | list items => cases items <;> exact ⟨_, _, rfl, rfl⟩
  | record fields => cases fields <;> exact ⟨_, _, rfl, rfl⟩

/-- Documents whose texts can go on to be the same are of one kind. -/
theorem Written.opening_eq {d d' : Json} {t t' r s : List Char} (h : Written escape d t)
    (h' : Written escape d' t') (heq : t ++ r = t' ++ s) : d.opening = d'.opening := by
  obtain ⟨c, rest, rfl, hc⟩ := h.exists_cons
  obtain ⟨c', rest', rfl, hc'⟩ := h'.exists_cons
  rw [← hc, ← hc', (List.cons.inj heq).1]

theorem solid_written : Solid (Written escape) := by
  intro d t h
  obtain ⟨c, rest, rfl, hc⟩ := h.exists_cons
  refine ⟨c, rest, rfl, ?_, ?_⟩
  · cases hblank : isBlank c with
    | false => rfl
    | true =>
      simp only [isBlank, Bool.or_eq_true, beq_iff_eq] at hblank
      rcases hblank with ((rfl | rfl) | rfl) | rfl <;> cases d <;> cases hc
  · cases hclosing : isClosing c with
    | false => rfl
    | true =>
      simp only [isClosing, Bool.or_eq_true, beq_iff_eq] at hclosing
      rcases hclosing with rfl | rfl <;> cases d <;> cases hc

theorem solid_field : Solid (Field escape (Written escape)) := by
  rintro _ _ ⟨⟩
  exact ⟨_, _, rfl, rfl, rfl⟩

/-- A field is told apart by its name, and by its value. -/
theorem Delimited.field (hescape : Escaping escape) {field : String × Json}
    (h : Delimited (Written escape) field.2) : Delimited (Field escape (Written escape)) field := by
  rintro field' _ _ r s ⟨blank, blankValue, item⟩ ⟨blank', blankValue', item'⟩ hr hs heq
  simp only [List.append_assoc, List.cons_append] at heq
  obtain ⟨rfl, hcolon⟩ := hescape.quoted_append_inj heq
  obtain ⟨-, hvalue⟩ := blank_cons_append_inj blank blank' (by decide) (by decide) hcolon
  obtain ⟨rfl, rfl⟩ := h _ _ _ r s item item' hr hs (blank_append_inj blankValue blankValue'
    (solid_written.stops item r) (solid_written.stops item' s) hvalue)
  exact ⟨rfl, rfl⟩

/-- Documents can be told apart, whatever follows them but a digit. -/
theorem delimited_written (hescape : Escaping escape) (d : Json) :
    Delimited (Written escape) d := by
  induction d using induct with
  | null =>
    intro d' t t' r s h h' _ _ heq
    have hkind := h.opening_eq h' heq
    cases h with
    | null =>
      cases h' with
      | null => exact ⟨rfl, List.append_cancel_left heq⟩
      | _ => cases hkind
  | bool b =>
    intro d' t t' r s h h' _ _ heq
    have hkind := h.opening_eq h' heq
    cases h with
    | bool =>
      cases h' with
      | bool b' =>
        cases b with
        | true =>
          cases b' with
          | true => exact ⟨rfl, List.append_cancel_left heq⟩
          | false => exact absurd (List.cons.inj heq).1 (by decide)
        | false =>
          cases b' with
          | true => exact absurd (List.cons.inj heq).1 (by decide)
          | false => exact ⟨rfl, List.append_cancel_left heq⟩
      | _ => cases hkind
  | number n =>
    intro d' t t' r s h h' hr hs heq
    have hkind := h.opening_eq h' heq
    cases h with
    | number =>
      cases h' with
      | number m =>
        obtain ⟨hdigits, rfl⟩ := span_append_inj (fun _ => isDigit_of_mem_numeral)
          (fun _ => isDigit_of_mem_numeral) hr hs heq
        exact ⟨congrArg number (toDigits_injective hdigits), rfl⟩
      | _ => cases hkind
  | text s =>
    intro d' t t' r s h h' _ _ heq
    have hkind := h.opening_eq h' heq
    cases h with
    | text =>
      cases h' with
      | text s' =>
        obtain ⟨rfl, rfl⟩ := hescape.quoted_append_inj heq
        exact ⟨rfl, rfl⟩
      | _ => cases hkind
  | list items ih =>
    intro d' t t' r s h h' _ _ heq
    have hkind := h.opening_eq h' heq
    cases h with
    | list written =>
      cases h' with
      | list written' =>
        obtain ⟨rfl, rfl⟩ := written.append_inj rfl solid_written ih written' heq
        exact ⟨rfl, rfl⟩
      | _ => cases hkind
  | record fields ih =>
    intro d' t t' r s h h' _ _ heq
    have hkind := h.opening_eq h' heq
    cases h with
    | record written =>
      cases h' with
      | record written' =>
        obtain ⟨rfl, rfl⟩ := written.append_inj rfl solid_field
          (fun field hfield => (ih field hfield).field hescape) written' heq
        exact ⟨rfl, rfl⟩
      | _ => cases hkind

/-- No text writes two documents. -/
theorem Written.unique (hescape : Escaping escape) {d d' : Json} {t : List Char}
    (h : Written escape d t) (h' : Written escape d' t) : d = d' :=
  (delimited_written hescape d d' t t [] [] h h' (stops_nil _) (stops_nil _) rfl).1

/-- Documents that are written in the same way are the same. -/
theorem Written.inj (hescape : Escaping escape) {print : Json → String}
    (hprint : ∀ d, Written escape d (print d).toList) {d d' : Json} :
    print d = print d' ↔ d = d' :=
  ⟨fun h => (hprint d).unique hescape (h ▸ hprint d'), congrArg print⟩

/-! ## The way documents are written -/

/-- The value of a hexadecimal digit. -/
def hexValue (c : Char) : Nat := if c.isDigit then c.toNat - '0'.toNat else c.toNat - 'a'.toNat + 10

/-- The character that a letter behind a backslash stands for. -/
def unescaped : Char → Char
  | 'b' => '\x08'
  | 'f' => '\x0c'
  | 'n' => '\n'
  | 'r' => '\r'
  | 't' => '\t'
  | c => c

/-- The character in front of an escaped text, and what is behind it. -/
def readChar? : List Char → Option (Char × List Char)
  | '\\' :: 'u' :: _ :: _ :: high :: low :: rest =>
    some (Char.ofNat (16 * hexValue high + hexValue low), rest)
  | '\\' :: c :: rest => some (unescaped c, rest)
  | c :: rest => some (c, rest)
  | [] => none

/-- A character that stands for itself between quotes. -/
def isPlain (c : Char) : Bool := c != '"' && c != '\\'

/-- The code of a control is written with two zeros in front, in plain characters. -/
theorem hex4_of_lt : ∀ n < 0x20,
    hex4 n = ['0', '0', Nat.digitChar (n / 16), Nat.digitChar (n % 16)] ∧
      16 * hexValue (Nat.digitChar (n / 16)) + hexValue (Nat.digitChar (n % 16)) = n ∧
      (hex4 n).all isPlain = true := by
  decide

/-- An escaped character is read back. -/
theorem readChar?_escapedChar (c : Char) (rest : List Char) :
    readChar? (escapedChar c ++ rest) = some (c, rest) := by
  unfold escapedChar
  split
  · rfl
  · rfl
  · rfl
  · rfl
  · rfl
  · rfl
  · rfl
  · split
    · rename_i hlt
      obtain ⟨hdigits, hvalue, -⟩ := hex4_of_lt c.toNat hlt
      rw [hdigits]
      show some (Char.ofNat _, rest) = _
      rw [hvalue, Char.ofNat_toNat]
    · rename_i _ hbackslash _ _ _ _ _ _
      show readChar? (c :: rest) = _
      unfold readChar?
      split
      · rename_i heq
        exact absurd (List.cons.inj heq).1 hbackslash
      · rename_i heq
        exact absurd (List.cons.inj heq).1 hbackslash
      · rename_i heq
        obtain ⟨rfl, rfl⟩ := List.cons.inj heq
        rfl
      · rename_i heq
        cases heq

/-- A text as it is escaped. -/
def escaped (s : String) : List Char := s.toList.flatMap escapedChar

theorem Body.append_of_plain {w rest : List Char} (hw : w.all isPlain = true) (h : Body rest) :
    Body (w ++ rest) := by
  induction w with
  | nil => exact h
  | cons c w ih =>
    rw [List.all_cons, Bool.and_eq_true] at hw
    obtain ⟨hquote, hbackslash⟩ := Bool.and_eq_true_iff.mp hw.1
    exact .plain (bne_iff_ne.mp hquote) (bne_iff_ne.mp hbackslash) (ih hw.2)

theorem Body.escapedChar_append (c : Char) {rest : List Char} (h : Body rest) :
    Body (escapedChar c ++ rest) := by
  unfold escapedChar
  split
  · exact .escaped h
  · exact .escaped h
  · exact .escaped h
  · exact .escaped h
  · exact .escaped h
  · exact .escaped h
  · exact .escaped h
  · split
    · rename_i hlt
      exact .escaped (append_of_plain (hex4_of_lt c.toNat hlt).2.2 h)
    · rename_i hquote hbackslash _ _ _ _ _ _
      exact .plain hquote hbackslash h

theorem flatMap_escapedChar_inj {cs cs' : List Char}
    (h : cs.flatMap escapedChar = cs'.flatMap escapedChar) : cs = cs' := by
  induction cs generalizing cs' with
  | nil =>
    cases cs' with
    | nil => rfl
    | cons c cs' =>
      have hread := congrArg readChar? h
      rw [List.flatMap_cons, readChar?_escapedChar] at hread
      cases hread
  | cons c cs ih =>
    have hread := congrArg readChar? h
    rw [List.flatMap_cons, readChar?_escapedChar] at hread
    cases cs' with
    | nil => cases hread
    | cons c' cs' =>
      rw [List.flatMap_cons, readChar?_escapedChar] at hread
      obtain ⟨rfl, hrest⟩ := Prod.mk.inj (Option.some.inj hread)
      rw [ih hrest]

theorem escaping_escaped : Escaping escaped where
  body s := by
    unfold escaped
    induction s.toList with
    | nil => exact .nil
    | cons c cs ih => exact .escapedChar_append c ih
  injective _ _ h := String.toList_injective (flatMap_escapedChar_inj h)

theorem blank_nil : Blank [] := nofun

theorem blank_newline (depth : Nat) : Blank (newline depth) := by
  intro c hc
  rcases List.mem_cons.mp hc with rfl | hc
  · rfl
  · rw [List.eq_of_mem_replicate hc]
    rfl

section Layout

variable {α : Type} {Writes : α → List Char → Prop} {code : α → List Char}

theorem following_of_writes (depth : Nat) (closing : Char) {rest : List α}
    (hrest : ∀ a ∈ rest, Writes a (code a)) :
    Following Writes closing rest
      ((rest.map code).flatMap (fun item => ',' :: newline (depth + 1) ++ item) ++
        newline depth ++ [closing]) := by
  induction rest with
  | nil => exact .nil (blank_newline depth)
  | cons a rest ih =>
    have htail := ih fun b hb => hrest b (List.mem_cons_of_mem a hb)
    simpa using
      Following.cons blank_nil (blank_newline (depth + 1)) (hrest a List.mem_cons_self) htail

theorem enclosed_of_writes (opening closing : Char) (depth : Nat) {items : List α}
    (hitems : ∀ a ∈ items, Writes a (code a)) :
    Enclosed Writes opening closing items (enclosed opening closing depth (items.map code)) := by
  cases items with
  | nil => exact .nil blank_nil
  | cons a rest =>
    have htail := following_of_writes depth closing fun b hb => hitems b (List.mem_cons_of_mem a hb)
    have hwhole : Enclosed Writes opening closing (a :: rest) _ :=
      .cons (blank_newline (depth + 1)) (hitems a List.mem_cons_self) htail
    simpa [enclosed] using hwhole

end Layout

theorem writeItems_eq (depth : Nat) (items : List Json) :
    writeItems depth items = items.map (write depth) := by
  induction items with
  | nil => rfl
  | cons item rest ih => rw [writeItems, ih, List.map_cons]

/-- A field as it is written. -/
def writeField (depth : Nat) (field : String × Json) : List Char :=
  escapedText field.1 ++ [':', ' '] ++ write depth field.2

theorem writeFields_eq (depth : Nat) (fields : List (String × Json)) :
    writeFields depth fields = fields.map (writeField depth) := by
  induction fields with
  | nil => rfl
  | cons field rest ih =>
    obtain ⟨name, value⟩ := field
    rw [writeFields, ih, List.map_cons, writeField]

theorem field_writeField {depth : Nat} {field : String × Json}
    (h : Written escaped field.2 (write depth field.2)) :
    Field escaped (Written escaped) field (writeField depth field) := by
  obtain ⟨name, value⟩ := field
  have hspace : Blank [' '] := fun c hc => List.mem_singleton.mp hc ▸ rfl
  have hname : escapedText name = quoted (escaped name) := rfl
  rw [writeField, hname, List.append_assoc]
  exact .mk blank_nil hspace h

theorem written_write (d : Json) (depth : Nat) : Written escaped d (write depth d) := by
  induction d using induct generalizing depth with
  | null => exact .null
  | bool b => exact .bool b
  | number n => exact .number n
  | text s => exact .text s
  | list items ih =>
    rw [write, writeItems_eq]
    exact .list (enclosed_of_writes _ _ _ fun item hitem => ih item hitem _)
  | record fields ih =>
    rw [write, writeFields_eq]
    exact .record (enclosed_of_writes _ _ _ fun field hfield => field_writeField (ih field hfield _))

/-- The written form of a document writes it. -/
theorem written_pretty (d : Json) : Written escaped d d.pretty.toList := by
  rw [pretty, String.toList_ofList]
  exact written_write d 0

end Retention.Json
