/-
  Canonical JSON text (`ssp-protocol/src/snapshot_hash.rs`).

  `canonical_json` writes objects with their keys sorted and leaves primitives to
  `serde_json`. Number formatting is a library's and stays a parameter
  (`NumberText` says what is used of it: one text per number, made of number
  characters). The text of a value is self-delimiting (`canonical_inj`), and no
  tail of it after an `=` is the text of another value (`canonical_no_tail`).

  All text here is Unicode; its bytes are its UTF-8 encoding. A JSON map is its
  field list in key order (`Json.WF`).
-/
import Sp00ky.Lib.OrderedSet
import Sp00ky.Ssp.Types

namespace Sp00ky.Ssp

open Lib

/-! ## JSON maps -/

mutual

/-- Maps list their fields in key order, each key once; floats are finite. -/
def Json.WF : Json → Prop
  | .float f => f.isFinite = true
  | .array items => WFItems items
  | .object fields => WFFields fields ∧ (fields.map Prod.fst).Pairwise (compare · · = .lt)
  | _ => True

def Json.WFItems : List Json → Prop
  | [] => True
  | j :: js => j.WF ∧ WFItems js

def Json.WFFields : List (String × Json) → Prop
  | [] => True
  | (_, j) :: fs => j.WF ∧ WFFields fs

end

/-! ## Text -/

/-- A JSON number. -/
inductive JsonNumber where
  | int (i : Int)
  | float (f : F64)
deriving DecidableEq, Repr

def dquote : Char := Char.ofNat 34

def backslash : Char := Char.ofNat 92

/-- The one-letter escapes of `serde_json`. -/
def letterEscapes : List (Char × Char) :=
  [(dquote, dquote), (backslash, backslash), (Char.ofNat 8, 'b'), (Char.ofNat 12, 'f'),
    ('\n', 'n'), ('\r', 'r'), ('\t', 't')]

def letterEscape (c : Char) : Option Char :=
  (letterEscapes.find? fun p => p.1 == c).map Prod.snd

/-- A lower-case hexadecimal digit. -/
def hexDigit (n : Nat) : Char := if n < 10 then Char.ofNat (48 + n) else Char.ofNat (87 + n)

/-- One character of a string literal: other control characters are `\u00xx`. -/
def escapeChar (c : Char) : List Char :=
  match letterEscape c with
  | some e => [backslash, e]
  | none =>
    if c.toNat < 32 then
      [backslash, 'u', '0', '0', hexDigit (c.toNat / 16), hexDigit (c.toNat % 16)]
    else [c]

/-- A JSON string literal. -/
def quoteText (s : String) : List Char := dquote :: s.toList.flatMap escapeChar ++ [dquote]

/-- The comma before all entries but the first. -/
def comma (first : Bool) : List Char := if first then [] else [',']

/-- The fields of an object, written out. -/
def fieldsText (first : Bool) : List (String × List Char) → List Char
  | [] => ['}']
  | (k, text) :: fs => comma first ++ quoteText k ++ ':' :: text ++ fieldsText false fs

mutual

/-- `write_canonical`. -/
def Json.canonical (num : JsonNumber → List Char) : Json → List Char
  | .null => "null".toList
  | .bool b => if b then "true".toList else "false".toList
  | .int i => num (.int i)
  | .float f => num (.float f)
  | .str s => quoteText s
  | .array items => '[' :: itemsText num true items
  | .object fields => '{' :: fieldsText true
      (sortBy (fun a b => compare a.1 b.1) (fieldTexts num fields))

def Json.itemsText (num : JsonNumber → List Char) (first : Bool) : List Json → List Char
  | [] => [']']
  | j :: js => comma first ++ j.canonical num ++ itemsText num false js

def Json.fieldTexts (num : JsonNumber → List Char) :
    List (String × Json) → List (String × List Char)
  | [] => []
  | (k, j) :: fs => (k, j.canonical num) :: fieldTexts num fs

end

/-- The characters of a number. -/
def numberChars : List Char :=
  ['0', '1', '2', '3', '4', '5', '6', '7', '8', '9', '+', '-', '.', 'e', 'E']

/-- A number that JSON has. -/
def JsonNumber.ok : JsonNumber → Prop
  | .int _ => True
  | .float f => f.isFinite = true

/-- What is used of the number formatting: a text per number, of number characters. -/
structure NumberText (num : JsonNumber → List Char) : Prop where
  nonempty : ∀ n, n.ok → num n ≠ []
  chars : ∀ n, n.ok → ∀ c ∈ num n, c ∈ numberChars
  inj : ∀ m n, m.ok → n.ok → num m = num n → m = n

/-! ## String literals -/

theorem letterEscape_some {c e : Char} (h : letterEscape c = some e) : (c, e) ∈ letterEscapes := by
  obtain ⟨p, hp, rfl⟩ := Option.map_eq_some_iff.mp h
  have hc : p.1 = c := by simpa using List.find?_some hp
  rw [← hc]
  exact List.mem_of_find?_eq_some hp

theorem letterEscapes_inj : ∀ p ∈ letterEscapes, ∀ q ∈ letterEscapes, p.2 = q.2 → p.1 = q.1 := by
  decide

theorem letterEscape_ne {c e : Char} (h : letterEscape c = some e) : e ≠ 'u' := by
  have hall : ∀ p ∈ letterEscapes, p.2 ≠ 'u' := by decide
  exact hall _ (letterEscape_some h)

variable {c : Char}

theorem letterEscape_none (h : letterEscape c = none) : c ≠ dquote ∧ c ≠ backslash := by
  constructor
  · rintro rfl
    revert h
    decide
  · rintro rfl
    revert h
    decide

theorem hexDigit_inj {m n : Nat} (hm : m < 16) (hn : n < 16) (h : hexDigit m = hexDigit n) :
    m = n := by
  have hall : ∀ m < 16, ∀ n < 16, hexDigit m = hexDigit n → m = n := by decide
  exact hall m hm n hn h

variable {r s l : List Char}

/-- Escapes form a prefix code. -/
theorem escapeChar_inj {c d : Char} (h : escapeChar c ++ r = escapeChar d ++ s) :
    c = d ∧ r = s := by
  unfold escapeChar at h
  cases hc : letterEscape c with
  | some e =>
    have hne := letterEscape_ne hc
    cases hd : letterEscape d with
    | some e' =>
      simp only [hc, hd, List.cons_append, List.nil_append, List.cons.injEq, true_and] at h
      exact ⟨letterEscapes_inj _ (letterEscape_some hc) _ (letterEscape_some hd) h.1, h.2⟩
    | none =>
      simp only [hc, hd] at h
      split at h
      · simp only [List.cons_append, List.cons.injEq, true_and] at h
        exact absurd h.1 hne
      · simp only [List.cons_append, List.nil_append, List.cons.injEq] at h
        exact absurd h.1.symm (letterEscape_none hd).2
  | none =>
    cases hd : letterEscape d with
    | some e' =>
      have hne := letterEscape_ne hd
      simp only [hc, hd] at h
      split at h
      · simp only [List.cons_append, List.cons.injEq, true_and] at h
        exact absurd h.1.symm hne
      · simp only [List.cons_append, List.nil_append, List.cons.injEq] at h
        exact absurd h.1 (letterEscape_none hc).2
    | none =>
      simp only [hc, hd] at h
      split at h <;> split at h
      · next h1 h2 =>
        simp only [List.cons_append, List.nil_append, List.cons.injEq, true_and] at h
        obtain ⟨h3, h4, h5⟩ := h
        have h6 := hexDigit_inj (by omega) (by omega) h3
        have h7 := hexDigit_inj (by omega) (by omega) h4
        have h8 : c.toNat = d.toNat := by omega
        exact ⟨Char.ext (UInt32.toNat_inj.mp h8), h5⟩
      · simp only [List.cons_append, List.nil_append, List.cons.injEq] at h
        exact absurd h.1.symm (letterEscape_none hd).2
      · simp only [List.cons_append, List.nil_append, List.cons.injEq] at h
        exact absurd h.1 (letterEscape_none hc).2
      · simpa using h

/-- An escape starts with no quote. -/
theorem escapeChar_ne_quote : escapeChar c ++ r ≠ dquote :: s := by
  intro h
  unfold escapeChar at h
  cases hc : letterEscape c with
  | some e =>
    simp only [hc, List.cons_append, List.cons.injEq] at h
    exact absurd h.1 (by decide)
  | none =>
    simp only [hc] at h
    split at h
    · simp only [List.cons_append, List.cons.injEq] at h
      exact absurd h.1 (by decide)
    · simp only [List.cons_append, List.nil_append, List.cons.injEq] at h
      exact (letterEscape_none hc).1 h.1

theorem quoteText_inj {a b : String} (h : quoteText a ++ r = quoteText b ++ s) : a = b ∧ r = s := by
  have hchars : ∀ l m : List Char,
      l.flatMap escapeChar ++ dquote :: r = m.flatMap escapeChar ++ dquote :: s →
        l = m ∧ r = s := by
    intro l
    induction l with
    | nil =>
      intro m hm
      cases m with
      | nil => simpa using hm
      | cons c m =>
        rw [List.flatMap_cons, List.append_assoc] at hm
        exact absurd hm.symm escapeChar_ne_quote
    | cons c l ih =>
      intro m hm
      cases m with
      | nil =>
        rw [List.flatMap_cons, List.append_assoc] at hm
        exact absurd hm escapeChar_ne_quote
      | cons d m =>
        rw [List.flatMap_cons, List.flatMap_cons, List.append_assoc, List.append_assoc] at hm
        obtain ⟨rfl, hrest⟩ := escapeChar_inj hm
        obtain ⟨rfl, hr⟩ := ih m hrest
        exact ⟨rfl, hr⟩
  simp only [quoteText, List.cons_append, List.append_assoc, List.cons.injEq, true_and,
    List.nil_append] at h
  obtain ⟨hl, hr⟩ := hchars _ _ h
  exact ⟨String.toList_injective hl, hr⟩

/-! ## Self-delimiting text -/

/-- The kind of value a text starts. -/
def leadKind (c : Char) : Nat :=
  if c = 'n' then 0
  else if c = 't' ∨ c = 'f' then 1
  else if c ∈ numberChars then 2
  else if c = dquote then 3
  else if c = '[' then 4
  else if c = '{' then 5
  else 6

def Json.kind : Json → Nat
  | .null => 0
  | .bool _ => 1
  | .int _ | .float _ => 2
  | .str _ => 3
  | .array _ => 4
  | .object _ => 5

/-- Not the start of more digits. -/
def Stop (r : List Char) : Prop := ∀ c ∈ r.head?, c ∉ numberChars

theorem stop_cons (h : c ∉ numberChars) (r : List Char) : Stop (c :: r) := by
  intro d hd
  cases hd
  exact h

variable {num : JsonNumber → List Char}

section Canonical

variable (hnum : NumberText num)

include hnum

theorem number_lead {n : JsonNumber} (hn : n.ok) :
    ∃ c rest, num n = c :: rest ∧ leadKind c = 2 := by
  have hall : ∀ c ∈ numberChars, leadKind c = 2 :=
    @of_decide_eq_true _ (List.decidableBAll _ _) (by decide)
  cases h : num n with
  | nil => exact absurd h (hnum.nonempty n hn)
  | cons c rest => exact ⟨c, rest, rfl, hall c (hnum.chars n hn c (by rw [h]; simp))⟩

theorem canonical_lead {j : Json} (hj : j.WF) :
    ∃ c rest, j.canonical num = c :: rest ∧ leadKind c = j.kind := by
  cases j with
  | null => exact ⟨'n', _, rfl, rfl⟩
  | bool b =>
    cases b
    · exact ⟨'f', _, rfl, rfl⟩
    · exact ⟨'t', _, rfl, rfl⟩
  | int i => exact number_lead hnum trivial
  | float f => exact number_lead hnum hj
  | str s => exact ⟨dquote, _, rfl, rfl⟩
  | array items => exact ⟨'[', _, by rw [Json.canonical], rfl⟩
  | object fields => exact ⟨'{', _, by rw [Json.canonical], rfl⟩

/-- A text starts with no closing bracket. -/
theorem canonical_ne_close {j : Json} (hj : j.WF) {r s : List Char} :
    j.canonical num ++ r ≠ ']' :: s := by
  obtain ⟨c, rest, hc, hk⟩ := canonical_lead hnum hj
  rw [hc]
  intro h
  simp only [List.cons_append, List.cons.injEq] at h
  rw [h.1] at hk
  have : leadKind ']' = 6 := by decide
  rw [this] at hk
  cases j <;> cases hk

theorem number_inj {m n : JsonNumber} (hm : m.ok) (hn : n.ok) {r s : List Char} (hr : Stop r)
    (hs : Stop s) (h : num m ++ r = num n ++ s) : m = n ∧ r = s := by
  have htake : ∀ {n : JsonNumber} {r : List Char}, n.ok → Stop r →
      (num n ++ r).takeWhile (· ∈ numberChars) = num n := by
    intro n r hn hr
    rw [List.takeWhile_append_of_pos fun c hc => by simpa using hnum.chars n hn c hc]
    cases r with
    | nil => simp
    | cons c r => simp [hr c rfl]
  have heq : num m = num n := by rw [← htake hm hr, h, htake hn hs]
  rw [heq] at h
  exact ⟨hnum.inj m n hm hn heq, List.append_cancel_left h⟩

omit hnum in
theorem fieldTexts_keys (fields : List (String × Json)) :
    (Json.fieldTexts num fields).map Prod.fst = fields.map Prod.fst := by
  induction fields with
  | nil => rfl
  | cons kj fs ih =>
    obtain ⟨k, j⟩ := kj
    rw [Json.fieldTexts, List.map_cons, List.map_cons, ih]

omit hnum in
/-- A map is written in its own order. -/
theorem canonical_object {fields : List (String × Json)} (h : (Json.object fields).WF) :
    (Json.object fields).canonical num = '{' :: fieldsText true (Json.fieldTexts num fields) := by
  rw [Json.canonical, sortBy_increasing]
  have h2 : ((Json.fieldTexts num fields).map Prod.fst).Pairwise (compare · · = .lt) := by
    rw [fieldTexts_keys]
    exact h.2
  rw [List.pairwise_map] at h2
  exact h2

end Canonical

mutual

/-- The text of a value is self-delimiting. -/
theorem canonical_inj (hnum : NumberText num) : ∀ (a b : Json) (r s : List Char), a.WF → b.WF → Stop r → Stop s →
    a.canonical num ++ r = b.canonical num ++ s → a = b ∧ r = s := by
  intro a b r s ha hb hr hs h
  have hkind : a.kind = b.kind := by
    obtain ⟨c, rest, hc, hk⟩ := canonical_lead hnum ha
    obtain ⟨d, rest', hd, hk'⟩ := canonical_lead hnum hb
    rw [hc, hd] at h
    simp only [List.cons_append, List.cons.injEq] at h
    rw [← hk, ← hk', h.1]
  cases a with
  | null =>
    cases b with
    | null => exact ⟨rfl, List.append_cancel_left h⟩
    | _ => cases hkind
  | bool x =>
    cases b with
    | bool y =>
      cases x <;> cases y
      · exact ⟨rfl, List.append_cancel_left h⟩
      · cases h
      · cases h
      · exact ⟨rfl, List.append_cancel_left h⟩
    | _ => cases hkind
  | int x =>
    cases b with
    | int y =>
      obtain ⟨he, hrs⟩ := number_inj hnum (m := .int x) (n := .int y) trivial trivial hr hs h
      cases he
      exact ⟨rfl, hrs⟩
    | float y =>
      obtain ⟨he, -⟩ := number_inj hnum (m := .int x) (n := .float y) trivial hb hr hs h
      cases he
    | _ => cases hkind
  | float x =>
    cases b with
    | int y =>
      obtain ⟨he, -⟩ := number_inj hnum (m := .float x) (n := .int y) ha trivial hr hs h
      cases he
    | float y =>
      obtain ⟨he, hrs⟩ := number_inj hnum (m := .float x) (n := .float y) ha hb hr hs h
      cases he
      exact ⟨rfl, hrs⟩
    | _ => cases hkind
  | str x =>
    cases b with
    | str y =>
      obtain ⟨he, hrs⟩ := quoteText_inj h
      exact ⟨congrArg _ he, hrs⟩
    | _ => cases hkind
  | array l =>
    cases b with
    | array m =>
      rw [Json.canonical, Json.canonical, List.cons_append, List.cons_append, List.cons.injEq] at h
      obtain ⟨he, hrs⟩ := itemsText_inj hnum l m true r s ha hb h.2
      exact ⟨congrArg _ he, hrs⟩
    | _ => cases hkind
  | object l =>
    cases b with
    | object m =>
      rw [canonical_object ha, canonical_object hb, List.cons_append, List.cons_append,
        List.cons.injEq] at h
      obtain ⟨he, hrs⟩ := fieldsText_inj hnum l m true r s ha.1 hb.1 h.2
      exact ⟨congrArg _ he, hrs⟩
    | _ => cases hkind

theorem itemsText_inj (hnum : NumberText num) : ∀ (l m : List Json) (first : Bool)
    (r s : List Char), Json.WFItems l → Json.WFItems m →
    Json.itemsText num first l ++ r = Json.itemsText num first m ++ s →
    l = m ∧ r = s := by
  intro l m first r s hl hm h
  have hstop : ∀ (k : List Json) (t : List Char), Stop (Json.itemsText num false k ++ t) := by
    intro k t
    cases k with
    | nil | cons j k => exact stop_cons (by decide) _
  cases l with
  | nil =>
    cases m with
    | nil => simpa [Json.itemsText] using h
    | cons b m =>
      cases first with
      | false => simp [Json.itemsText, comma] at h
      | true =>
        simp only [Json.itemsText, comma, if_true, List.nil_append, List.append_assoc,
          List.cons_append] at h
        exact absurd h.symm (canonical_ne_close hnum hm.1)
  | cons a l =>
    cases m with
    | nil =>
      cases first with
      | false => simp [Json.itemsText, comma] at h
      | true =>
        simp only [Json.itemsText, comma, if_true, List.nil_append, List.append_assoc,
          List.cons_append] at h
        exact absurd h (canonical_ne_close hnum hl.1)
    | cons b m =>
      rw [Json.itemsText, Json.itemsText, List.append_assoc, List.append_assoc, List.append_assoc,
        List.append_assoc] at h
      obtain ⟨rfl, h2⟩ := canonical_inj hnum a b _ _ hl.1 hm.1 (hstop _ _) (hstop _ _)
        (List.append_cancel_left h)
      obtain ⟨rfl, h3⟩ := itemsText_inj hnum l m false r s hl.2 hm.2 h2
      exact ⟨rfl, h3⟩

theorem fieldsText_inj (hnum : NumberText num) : ∀ (l m : List (String × Json)) (first : Bool)
    (r s : List Char),
    Json.WFFields l → Json.WFFields m →
    fieldsText first (Json.fieldTexts num l) ++ r = fieldsText first (Json.fieldTexts num m) ++ s →
    l = m ∧ r = s := by
  intro l m first r s hl hm h
  have hstop : ∀ (k : List (String × List Char)) (t : List Char), Stop (fieldsText false k ++ t) := by
    intro k t
    cases k with
    | nil | cons j k => exact stop_cons (by decide) _
  cases l with
  | nil =>
    cases m with
    | nil => simpa [Json.fieldTexts, fieldsText] using h
    | cons b m =>
      obtain ⟨k, b⟩ := b
      cases first
      · simp [Json.fieldTexts, fieldsText, comma] at h
      · simp [Json.fieldTexts, fieldsText, comma, quoteText, dquote] at h
  | cons a l =>
    obtain ⟨k, a⟩ := a
    cases m with
    | nil =>
      cases first
      · simp [Json.fieldTexts, fieldsText, comma] at h
      · simp [Json.fieldTexts, fieldsText, comma, quoteText, dquote] at h
    | cons b m =>
      obtain ⟨k', b⟩ := b
      simp only [Json.fieldTexts, fieldsText, List.append_assoc, List.cons_append] at h
      obtain ⟨rfl, h1⟩ := quoteText_inj (List.append_cancel_left h)
      simp only [List.cons.injEq, true_and] at h1
      obtain ⟨rfl, h2⟩ := canonical_inj hnum a b _ _ hl.1 hm.1 (hstop _ _) (hstop _ _) h1
      obtain ⟨rfl, h3⟩ := fieldsText_inj hnum l m false r s hl.2 hm.2 h2
      exact ⟨rfl, h3⟩

end

/-! ## Tails of a text -/

/-- Where a reader of JSON text is: outside strings, inside one, or after a backslash. -/
inductive Lex where
  | outside
  | inside
  | escaped
deriving DecidableEq

def Lex.next : Lex → Char → Lex
  | .outside, c => if c = dquote then .inside else .outside
  | .inside, c => if c = dquote then .outside else if c = backslash then .escaped else .inside
  | .escaped, _ => .inside

def Lex.run (st : Lex) (l : List Char) : Lex := l.foldl Lex.next st

/-- No backslash and no `=` outside strings. -/
def Quiet : Lex → List Char → Prop
  | _, [] => True
  | st, c :: l => (st = .outside → c ≠ backslash ∧ c ≠ '=') ∧ Quiet (st.next c) l

/-- A text that is quiet and leaves its reader outside strings. -/
def Balanced (l : List Char) : Prop := Quiet .outside l ∧ Lex.run .outside l = .outside

theorem quiet_append (st : Lex) (l m : List Char) :
    Quiet st (l ++ m) ↔ Quiet st l ∧ Quiet (st.run l) m := by
  induction l generalizing st with
  | nil => simp [Quiet, Lex.run]
  | cons c l ih =>
    simp only [List.cons_append, Quiet, ih, Lex.run, List.foldl_cons]
    tauto

theorem Balanced.append {l m : List Char} (hl : Balanced l) (hm : Balanced m) :
    Balanced (l ++ m) := by
  refine ⟨(quiet_append _ _ _).mpr ⟨hl.1, ?_⟩, ?_⟩
  · rw [hl.2]
    exact hm.1
  · rw [Lex.run, List.foldl_append]
    change Lex.run (Lex.run .outside l) m = _
    rw [hl.2]
    exact hm.2

theorem Balanced.cons (hq : c ≠ dquote) (hb : c ≠ backslash)
    (he : c ≠ '=') (hl : Balanced l) : Balanced (c :: l) := by
  have hnext : Lex.outside.next c = .outside := by simp [Lex.next, hq]
  refine ⟨⟨fun _ => ⟨hb, he⟩, ?_⟩, ?_⟩
  · rw [hnext]
    exact hl.1
  · rw [Lex.run, List.foldl_cons, hnext]
    exact hl.2

theorem balanced_nil : Balanced [] := ⟨trivial, rfl⟩

theorem balanced_comma (first : Bool) : Balanced (comma first) := by
  cases first
  · exact balanced_nil.cons (by decide) (by decide) (by decide)
  · exact balanced_nil

theorem balanced_number (hnum : NumberText num) {n : JsonNumber} (hn : n.ok) :
    Balanced (num n) := by
  have hall : ∀ c ∈ numberChars, c ≠ dquote ∧ c ≠ backslash ∧ c ≠ '=' :=
    @of_decide_eq_true _ (List.decidableBAll _ _) (by decide)
  have hl : ∀ l : List Char, (∀ c ∈ l, c ∈ numberChars) → Balanced l := by
    intro l
    induction l with
    | nil => exact fun _ => balanced_nil
    | cons c l ih =>
      intro hc
      obtain ⟨h1, h2, h3⟩ := hall c (hc c List.mem_cons_self)
      exact (ih (List.forall_mem_cons.mp hc).2).cons h1 h2 h3
  exact hl _ (hnum.chars n hn)

/-- An escape stays inside its string. -/
theorem inside_escapeChar (c : Char) :
    Quiet .inside (escapeChar c) ∧ Lex.run .inside (escapeChar c) = .inside := by
  have hbs : Lex.inside.next backslash = .escaped := by decide
  have hdigit : ∀ n, n < 16 → Lex.inside.next (hexDigit n) = .inside := by decide
  have hesc : ∀ e, Lex.escaped.next e = .inside := fun _ => rfl
  unfold escapeChar
  split
  · simp [Quiet, Lex.run, hbs, hesc]
  · next hnone =>
    obtain ⟨h1, h2⟩ := letterEscape_none hnone
    split
    · next hlt =>
      have h0 : Lex.inside.next '0' = .inside := by decide
      simp [Quiet, Lex.run, hbs, hesc, h0, hdigit (c.toNat / 16) (by omega),
        hdigit (c.toNat % 16) (by omega)]
    · simp [Quiet, Lex.run, Lex.next, h1, h2]

theorem balanced_quoteText (s : String) : Balanced (quoteText s) := by
  have hbody : ∀ l : List Char, Quiet .inside (l.flatMap escapeChar) ∧
      Lex.run .inside (l.flatMap escapeChar) = .inside := by
    intro l
    induction l with
    | nil => exact ⟨trivial, rfl⟩
    | cons c l ih =>
      obtain ⟨h1, h2⟩ := inside_escapeChar c
      rw [List.flatMap_cons]
      refine ⟨(quiet_append _ _ _).mpr ⟨h1, by rw [h2]; exact ih.1⟩, ?_⟩
      rw [Lex.run, List.foldl_append]
      change Lex.run (Lex.run .inside _) _ = _
      rw [h2]
      exact ih.2
  obtain ⟨h1, h2⟩ := hbody s.toList
  have hopen : Lex.outside.next dquote = .inside := by decide
  have hclose : Lex.inside.next dquote = .outside := by decide
  refine ⟨⟨fun _ => by decide, ?_⟩, ?_⟩
  · rw [hopen]
    exact (quiet_append _ _ _).mpr ⟨h1, by rw [h2]; simp [Quiet]⟩
  · rw [Lex.run, quoteText, List.cons_append, List.foldl_cons, hopen, List.foldl_append]
    change List.foldl Lex.next (Lex.run .inside _) _ = _
    rw [h2]
    exact hclose

theorem balanced_fieldsText : ∀ (first : Bool) (l : List (String × List Char)),
    (∀ kt ∈ l, Balanced kt.2) → Balanced (fieldsText first l)
  | _, [], _ => balanced_nil.cons (by decide) (by decide) (by decide)
  | first, (k, text) :: fs, h => by
    have htext : Balanced text := h (k, text) List.mem_cons_self
    have hrest := balanced_fieldsText false fs (List.forall_mem_cons.mp h).2
    rw [fieldsText, List.append_assoc]
    exact ((balanced_comma first).append (balanced_quoteText k)).append
      ((htext.append hrest).cons (by decide) (by decide) (by decide))

mutual

theorem balanced_canonical (hnum : NumberText num) :
    ∀ j : Json, j.WF → Balanced (j.canonical num)
  | .null, _ => by
    unfold Balanced
    simp only [Json.canonical]
    refine ⟨?_, by decide⟩
    simp [Quiet, Lex.next]
    decide
  | .bool b, _ => by
    cases b <;> refine ⟨?_, by simp only [Json.canonical]; decide⟩ <;>
      simp [Json.canonical, Quiet, Lex.next] <;> decide
  | .int _, _ => balanced_number hnum trivial
  | .float _, h => balanced_number hnum h
  | .str s, _ => balanced_quoteText s
  | .array items, h => by
    rw [Json.canonical]
    exact (balanced_itemsText hnum true items h).cons (by decide) (by decide) (by decide)
  | .object fields, h => by
    rw [canonical_object h]
    exact (balanced_fieldsText true _ (balanced_fieldTexts hnum fields h.1)).cons (by decide)
      (by decide) (by decide)

theorem balanced_itemsText (hnum : NumberText num) : ∀ (first : Bool) (l : List Json),
    Json.WFItems l → Balanced (Json.itemsText num first l)
  | _, [], _ => balanced_nil.cons (by decide) (by decide) (by decide)
  | first, j :: js, h => by
    rw [Json.itemsText]
    exact ((balanced_comma first).append (balanced_canonical hnum j h.1)).append
      (balanced_itemsText hnum false js h.2)

theorem balanced_fieldTexts (hnum : NumberText num) : ∀ l : List (String × Json),
    Json.WFFields l → ∀ kt ∈ Json.fieldTexts num l, Balanced kt.2
  | [], _, kt, hkt => by cases hkt
  | (k, j) :: fs, h, kt, hkt => by
    rw [Json.fieldTexts] at hkt
    rcases List.mem_cons.mp hkt with rfl | hkt
    · exact balanced_canonical hnum j h.1
    · exact balanced_fieldTexts hnum fs h.2 kt hkt

end

/-- Read from inside a string, a balanced text ends inside one. -/
theorem Balanced.run_inside (h : Balanced l) (hin : Quiet .inside l) :
    Lex.run .inside l = .inside := by
  -- the two readers are on opposite sides of every quote
  have hboth : ∀ (l : List Char) (st st' : Lex),
      (st = .outside ∧ st' = .inside ∨ st = .inside ∧ st' = .outside) → Quiet st l →
      Quiet st' l → (st.run l = .outside ∧ st'.run l = .inside ∨
        st.run l = .inside ∧ st'.run l = .outside) := by
    intro l
    induction l with
    | nil => exact fun _ _ hst _ _ => hst
    | cons c l ih =>
      rintro st st' hst ⟨h1, h2⟩ ⟨h3, h4⟩
      refine ih (st.next c) (st'.next c) ?_ h2 h4
      rcases hst with ⟨rfl, rfl⟩ | ⟨rfl, rfl⟩
      · obtain ⟨hb, -⟩ := h1 rfl
        by_cases hq : c = dquote
        · exact .inr (by simp [Lex.next, hq])
        · exact .inl (by simp [Lex.next, hq, hb])
      · obtain ⟨hb, -⟩ := h3 rfl
        by_cases hq : c = dquote
        · exact .inl (by simp [Lex.next, hq])
        · exact .inr (by simp [Lex.next, hq, hb])
  rcases hboth l .outside .inside (.inl ⟨rfl, rfl⟩) h.1 hin with ⟨-, h2⟩ | ⟨h1, -⟩
  · exact h2
  · rw [h.2] at h1
    cases h1

/-- No tail of a text after an `=` is itself a text. -/
theorem canonical_no_tail (hnum : NumberText num) {w v : Json} (hw : w.WF) (hv : v.WF)
    (l : List Char) : w.canonical num ≠ l ++ '=' :: v.canonical num := by
  intro h
  obtain ⟨hq, hrun⟩ := balanced_canonical hnum w hw
  rw [h, quiet_append] at hq
  rw [h, Lex.run, List.foldl_append] at hrun
  obtain ⟨-, hout, htail⟩ := hq
  have hne : Lex.run .outside l ≠ .outside := fun hst => (hout hst).2 rfl
  have hnext : (Lex.run .outside l).next '=' = .inside := by
    cases hst : Lex.run .outside l with
    | outside => exact absurd hst hne
    | inside => decide
    | escaped => rfl
  rw [hnext] at htail
  have hin := (balanced_canonical hnum v hv).run_inside htail
  change List.foldl Lex.next ((Lex.run .outside l).next '=') _ = _ at hrun
  rw [hnext] at hrun
  change Lex.run .inside _ = _ at hrun
  rw [hin] at hrun
  cases hrun

/-! ## A sample number formatting -/

/-- A number formatting: integers in decimal, floats by their bits. -/
def sampleNumber : JsonNumber → List Char
  | .int i => (if i < 0 then ['-'] else []) ++ Nat.toDigits 10 i.natAbs
  | .float f => 'e' :: Nat.toDigits 10 f.bits.toNat

theorem toDigits_isDigit {n : Nat} (h : c ∈ Nat.toDigits 10 n) : c.isDigit = true :=
  Nat.isDigit_of_mem_toDigits (by decide) (by decide) h

theorem toDigits_inj {m n : Nat} (h : Nat.toDigits 10 m = Nat.toDigits 10 n) : m = n := by
  rw [← Nat.ofDigitChars_ten_toDigits (n := m), h, Nat.ofDigitChars_ten_toDigits]

theorem isDigit_numberChars (h : c.isDigit = true) : c ∈ numberChars := by
  have hall : ∀ n < 58, 48 ≤ n → Char.ofNat n ∈ numberChars := by decide
  simp only [Char.isDigit, Bool.and_eq_true, decide_eq_true_eq] at h
  rw [← Char.ofNat_toNat c]
  refine hall c.toNat ?_ ?_
  · exact Nat.lt_succ_of_le h.2
  · exact h.1

theorem toDigits_lead {n : Nat} (hc : c.isDigit = false) :
    Nat.toDigits 10 n ≠ c :: l := by
  intro h
  have hd := toDigits_isDigit (h ▸ List.mem_cons_self : c ∈ Nat.toDigits 10 n)
  rw [hc] at hd
  cases hd

theorem sampleNumber_int_inj {i j : Int} (h : sampleNumber (.int i) = sampleNumber (.int j)) :
    i = j := by
  simp only [sampleNumber] at h
  by_cases hi : i < 0
  · by_cases hj : j < 0
    · rw [if_pos hi, if_pos hj] at h
      have := toDigits_inj (List.append_cancel_left h)
      omega
    · rw [if_pos hi, if_neg hj] at h
      exact absurd h.symm (toDigits_lead rfl)
  · by_cases hj : j < 0
    · rw [if_neg hi, if_pos hj] at h
      exact absurd h (toDigits_lead rfl)
    · rw [if_neg hi, if_neg hj] at h
      have := toDigits_inj (List.append_cancel_left h)
      omega

theorem sampleNumber_int_ne_float (i : Int) (f : F64) :
    sampleNumber (.int i) ≠ sampleNumber (.float f) := by
  intro h
  simp only [sampleNumber] at h
  split at h
  · exact absurd (List.cons.inj h).1 (by decide)
  · exact absurd h (toDigits_lead rfl)

theorem sampleNumber_text : NumberText sampleNumber := by
  refine ⟨?_, ?_, ?_⟩
  · intro n _
    cases n with
    | int i | float f => simp [sampleNumber]
  · intro n _ c hc
    cases n with
    | int i =>
      rcases List.mem_append.mp hc with hc | hc
      · split at hc
        · rw [List.mem_singleton.mp hc]
          decide
        · cases hc
      · exact isDigit_numberChars (toDigits_isDigit hc)
    | float f =>
      rcases List.mem_cons.mp hc with rfl | hc
      · decide
      · exact isDigit_numberChars (toDigits_isDigit hc)
  · intro m n _ _ h
    cases m with
    | int i =>
      cases n with
      | int j => rw [sampleNumber_int_inj h]
      | float g => exact absurd h (sampleNumber_int_ne_float i g)
    | float f =>
      cases n with
      | int j => exact absurd h.symm (sampleNumber_int_ne_float j f)
      | float g =>
        have hbits : f.bits = g.bits :=
          BitVec.eq_of_toNat_eq (toDigits_inj (List.cons.inj h).2)
        exact congrArg (fun b => JsonNumber.float ⟨b⟩) hbits

end Sp00ky.Ssp
