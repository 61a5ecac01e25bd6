/-
  The words of the `WHERE` grammar and its terminals.

  `Word u level w open` says that `w` is a term, a conjunction or a disjunction; words
  carry their blanks on both sides. The flag says that `w` ends in an identifier with
  nothing behind it: such a word cannot be followed by a keyword, which the
  identifier would swallow. Each terminal parser reads its words, and what it reads
  is one: identifiers, string literals, values, comparison symbols and lists of
  strings.
-/
import Mathlib
import Sp00ky.Ssp.Converter

namespace Sp00ky.Ssp

open Lib Lib.Parser

/-! ## Words -/

/-- A keyword in any case. -/
def Keyword (k : String) (w : List Char) : Prop :=
  SameWord (fun c d => c.toLower == d.toLower) k.toList w

/-- An identifier. -/
def IdentWord (u : Unicode) (w : List Char) : Prop :=
  ∃ c cs, w = c :: cs ∧ (c.isAlpha = true ∨ c = '_') ∧ ∀ d ∈ cs, u.identChar d = true

/-- A string literal; the flag says that it ends in `*`. -/
def StringWord (w : List Char) (pattern : Bool) : Prop :=
  ∃ q body, (q = '\'' ∨ q = Char.ofNat 34) ∧ body ≠ [] ∧ (∀ c ∈ body, c ≠ q) ∧
    w = q :: (body ++ [q]) ∧ pattern = decide (body.getLast? = some '*')

/-- A value: whether it ends in an identifier, and whether it is a plain JSON value. -/
inductive ValueWord (u : Unicode) : List Char → Bool → Bool → Prop
  | string {w : List Char} {pattern : Bool} : StringWord w pattern → ValueWord u w false !pattern
  | param {i : List Char} : IdentWord u i → ValueWord u ('$' :: i) true true
  | isTrue {w : List Char} : Keyword "true" w → ValueWord u w false true
  | isFalse {w : List Char} : Keyword "false" w → ValueWord u w false true
  | number {w : List Char} : w ≠ [] → (∀ c ∈ w, c.isDigit = true) → digitsValue w < 2 ^ 63 →
      ValueWord u w false true
  | ident {w : List Char} : IdentWord u w → (∀ a b, w = a ++ b → ¬ Keyword "true" a) →
      (∀ a b, w = a ++ b → ¬ Keyword "false" a) → ValueWord u w true false

/-- The comparison symbols. -/
def symbolWords : List (List Char) :=
  [['>', '='], ['<', '='], ['!', '='], ['='], ['>'], ['<']]

/-- The rest of a bracketed list of plain string literals. -/
inductive MembersWord : List Char → Prop
  | last {b w b' : List Char} : Blanks b → StringWord w false → Blanks b' →
      MembersWord (b ++ (w ++ (b' ++ [']'])))
  | more {b w b' s : List Char} : Blanks b → StringWord w false → Blanks b' → MembersWord s →
      MembersWord (b ++ (w ++ (b' ++ (',' :: s))))

/-- `left IN (SELECT VALUE p FROM t`, up to the table. -/
inductive SubqueryHead (u : Unicode) : List Char → Prop
  | mk {b₁ i b₂ k b₃ b₄ ks b₅ kv b₆ p b₇ kf b₈ t : List Char} : Blanks b₁ → IdentWord u i →
      Blanks b₂ → b₂ ≠ [] → Keyword "INSIDE" k ∨ Keyword "IN" k → Blanks b₃ → Blanks b₄ →
      Keyword "SELECT" ks → Blanks b₅ → Keyword "VALUE" kv → Blanks b₆ → IdentWord u p →
      Blanks b₇ → b₇ ≠ [] → Keyword "FROM" kf → Blanks b₈ → IdentWord u t →
      SubqueryHead u (b₁ ++ (i ++ (b₂ ++ (k ++ (b₃ ++ ('(' :: (b₄ ++ (ks ++ (b₅ ++ (kv ++
        (b₆ ++ (p ++ (b₇ ++ (kf ++ (b₈ ++ t)))))))))))))))

/-- The three levels of an expression. -/
inductive Level where
  | term | conj | disj
deriving DecidableEq, Repr

/-- Words of the grammar, with the flag that they end in a bare identifier. -/
inductive Word (u : Unicode) : Level → List Char → Bool → Prop
  | field {b₁ i b₂ o b₃ v b₄ : List Char} {g j : Bool} : Blanks b₁ → IdentWord u i → Blanks b₂ →
      (o ∈ symbolWords ∨ b₂ ≠ [] ∧ (Keyword "CONTAINS" o ∨ Keyword "INSIDE" o)) → Blanks b₃ →
      ValueWord u v g j → Blanks b₄ →
      Word u .term (b₁ ++ (i ++ (b₂ ++ (o ++ (b₃ ++ (v ++ b₄)))))) (g && b₄.isEmpty)
  | param {b₁ b₂ i b₃ o b₄ v b₅ : List Char} {g : Bool} : Blanks b₁ → Blanks b₂ →
      IdentWord u i → Blanks b₃ → o ∈ symbolWords → Blanks b₄ → ValueWord u v g true →
      Blanks b₅ →
      Word u .term (b₁ ++ ('$' :: (b₂ ++ (i ++ (b₃ ++ (o ++ (b₄ ++ (v ++ b₅))))))))
        (g && b₅.isEmpty)
  | membership {b₁ b₂ i b₃ k b₄ s b₅ : List Char} : Blanks b₁ → Blanks b₂ → IdentWord u i →
      Blanks b₃ → b₃ ≠ [] → Keyword "INSIDE" k ∨ Keyword "IN" k → Blanks b₄ → MembersWord s →
      Blanks b₅ →
      Word u .term (b₁ ++ ('$' :: (b₂ ++ (i ++ (b₃ ++ (k ++ (b₄ ++ ('[' :: (s ++ b₅)))))))))
        false
  | paren {b₁ w b₂ : List Char} {g : Bool} : Blanks b₁ → Word u .disj w g → Blanks b₂ →
      Word u .term (b₁ ++ ('(' :: (w ++ (')' :: b₂)))) false
  | subquery {s b b' : List Char} : SubqueryHead u s → Blanks b → Blanks b' →
      Word u .term (s ++ (b ++ (')' :: b'))) false
  | subqueryWhere {s b k w b' : List Char} {g : Bool} : SubqueryHead u s → Blanks b → b ≠ [] →
      Keyword "WHERE" k → Word u .disj w g → Blanks b' →
      Word u .term (s ++ (b ++ (k ++ (w ++ (')' :: b'))))) false
  | oneTerm {w : List Char} {g : Bool} : Word u .term w g → Word u .conj w g
  | and {w k w' : List Char} {g : Bool} : Word u .term w false → Keyword "AND" k →
      Word u .conj w' g → Word u .conj (w ++ (k ++ w')) g
  | oneConj {w : List Char} {g : Bool} : Word u .conj w g → Word u .disj w g
  | or {w k w' : List Char} {g : Bool} : Word u .conj w false → Keyword "OR" k →
      Word u .disj w' g → Word u .disj (w ++ (k ++ w')) g

/-! ## Characters -/

section Chars

variable {u : Unicode}

theorem identChar_of_isAlpha {c : Char} (h : c.isAlpha = true) : u.identChar c = true := by
  have hlt : c.toNat < 128 := by
    simp only [Char.isAlpha, Char.isUpper, Char.isLower, Bool.or_eq_true, Bool.and_eq_true,
      decide_eq_true_eq, UInt32.le_iff_toNat_le, ge_iff_le] at h
    have : c.toNat = c.val.toNat := rfl
    have : 'Z'.val.toNat = 90 := rfl
    have : 'z'.val.toNat = 122 := rfl
    omega
  simp [Unicode.identChar, u.ascii c hlt, Char.isAlphanum, h]

theorem identChar_underscore : u.identChar '_' = true := by
  simp [Unicode.identChar]

/-- An ASCII character outside the identifier alphabet. -/
theorem identChar_ascii {c : Char} (hlt : c.toNat < 128) :
    u.identChar c = (c.isAlphanum || c == '_' || c == ':' || c == '.') := by
  rw [Unicode.identChar, u.ascii c hlt]

theorem identChar_isDigit {c : Char} (h : u.identChar c = false) : c.isDigit = false := by
  by_contra hd
  rw [Bool.not_eq_false] at hd
  have hlt : c.toNat < 128 := by
    simp only [Char.isDigit, Bool.and_eq_true, decide_eq_true_eq, UInt32.le_iff_toNat_le,
      ge_iff_le] at hd
    have : c.toNat = c.val.toNat := rfl
    have : '9'.val.toNat = 57 := rfl
    omega
  rw [identChar_ascii hlt] at h
  simp [Char.isAlphanum, hd] at h

theorem isAlpha_toLower (c : Char) : c.toLower.isAlpha = c.isAlpha := by
  unfold Char.toLower
  split
  · next hu =>
    have h1 : c.isAlpha = true := by
      rw [Char.isAlpha, Char.isUpper, Bool.or_eq_true]
      exact .inl (by simpa using hu)
    rw [h1, Char.isAlpha, Char.isLower, Bool.or_eq_true]
    right
    simp only [Bool.and_eq_true, decide_eq_true_eq]
    rw [ge_iff_le, UInt32.le_iff_toNat_le, UInt32.le_iff_toNat_le] at hu
    simp only [ge_iff_le, UInt32.le_iff_toNat_le, UInt32.toNat_add]
    have h2 : 'A'.val.toNat = 65 := rfl
    have h3 : 'Z'.val.toNat = 90 := rfl
    have h4 : 'a'.val.toNat = 97 := rfl
    have h5 : 'z'.val.toNat = 122 := rfl
    have h6 : ('a'.val - 'A'.val).toNat = 32 := rfl
    omega
  · rfl

end Chars

/-! ## Keywords -/

variable {k : String} {w s rest r : List Char}

theorem tagNoCase_reads (h : Keyword k w) (r : List Char) :
    tagNoCase k.toList (w ++ r) = .ok r () := tagBy_append h r

theorem tagNoCase_ok {a : Unit}
    (h : tagNoCase k.toList s = .ok rest a) : ∃ w, s = w ++ rest ∧ Keyword k w := tagBy_ok h

theorem Keyword.alpha (h : Keyword k w)
    (hk : ∀ c ∈ k.toList, c.isAlpha = true) : ∀ d ∈ w, d.isAlpha = true := by
  unfold Keyword at h
  generalize k.toList = t at h hk
  induction h with
  | nil => simp
  | @cons c d t w hc hw ih =>
    intro x hx
    rcases List.mem_cons.mp hx with rfl | hx
    · have hx : (c.toLower == x.toLower) = true := hc
      rw [← isAlpha_toLower, ← eq_of_beq hx, isAlpha_toLower]
      exact hk c List.mem_cons_self
    · exact ih (List.forall_mem_cons.mp hk).2 x hx

variable {c q : Char}

/-- A keyword has the letters of its name, so it is not empty and leads with the first one. -/
theorem Keyword.head (h : Keyword k w)
    (hk : k.toList.head? = some c) : ∃ d ds, w = d :: ds ∧ d.toLower = c.toLower := by
  unfold Keyword at h
  cases ht : k.toList with
  | nil =>
    rw [ht] at hk
    cases hk
  | cons c' t =>
    rw [ht] at h hk
    cases hk
    cases h with
    | cons hc hw => exact ⟨_, _, rfl, (eq_of_beq hc).symm⟩

theorem tagNoCase_error (hk : k.toList.head? = some c)
    (hs : ∀ d ∈ s.head?, d.toLower ≠ c.toLower) : tagNoCase k.toList s = .error := by
  cases ht : k.toList with
  | nil =>
    rw [ht] at hk
    cases hk
  | cons c' t =>
    rw [ht] at hk
    cases hk
    refine tagBy_error_head fun d hd => ?_
    rw [beq_eq_false_iff_ne]
    exact fun h => hs d hd h.symm

/-! ## Identifiers -/

theorem takeWhile_takeWhile_le {f g : Char → Bool} (hfg : ∀ c, f c = true → g c = true)
    (s : List Char) : s.takeWhile f ++ (s.dropWhile f).takeWhile g = s.takeWhile g ∧
      (s.dropWhile f).dropWhile g = s.dropWhile g := by
  induction s with
  | nil => exact ⟨rfl, rfl⟩
  | cons c s ih =>
    by_cases hc : f c = true
    · rw [List.takeWhile_cons_of_pos hc, List.dropWhile_cons_of_pos hc,
        List.takeWhile_cons_of_pos (hfg c hc), List.dropWhile_cons_of_pos (hfg c hc),
        List.cons_append, ih.1, ih.2]
      exact ⟨rfl, rfl⟩
    · rw [List.takeWhile_cons_of_neg hc, List.dropWhile_cons_of_neg hc]
      exact ⟨rfl, rfl⟩

section Ident

variable {u : Unicode}

/-- Not led by a character of an identifier. -/
def Unident (u : Unicode) (s : List Char) : Prop := ∀ c ∈ s.head?, u.identChar c = false

/-- The identifier parser takes a start character and then all it can. -/
theorem parseIdentifier_eq {c : Char} {s : List Char} (hc : c.isAlpha = true ∨ c = '_') :
    parseIdentifier u (c :: s) =
      .ok (s.dropWhile u.identChar) (String.ofList (c :: s.takeWhile u.identChar)) := by
  unfold parseIdentifier
  have hid : u.identChar c = true := by
    rcases hc with hc | rfl
    · exact identChar_of_isAlpha hc
    · exact identChar_underscore
  by_cases ha : c.isAlpha = true
  · have hne : ((c :: s).takeWhile Char.isAlpha).isEmpty = false := by
      rw [List.takeWhile_cons_of_pos ha]
      rfl
    have h1 : takeWhile1 Char.isAlpha (c :: s) =
        .ok ((c :: s).dropWhile Char.isAlpha) ((c :: s).takeWhile Char.isAlpha) := by
      rw [takeWhile1, hne]
      rfl
    obtain ⟨h2, h3⟩ := takeWhile_takeWhile_le (fun d hd => identChar_of_isAlpha (u := u) hd) (c :: s)
    rw [bind_of_ok (alt_of_ok h1)]
    change PResult.ok _ _ = _
    rw [h2, h3, List.takeWhile_cons_of_pos hid, List.dropWhile_cons_of_pos hid]
  · obtain rfl : c = '_' := hc.resolve_left ha
    have h1 : takeWhile1 Char.isAlpha ('_' :: s) = .error := by
      rw [takeWhile1, List.takeWhile_cons_of_neg ha]
      rfl
    have h2 : value ['_'] (tag ['_']) ('_' :: s) = .ok s ['_'] := bind_of_ok (char_cons '_' s)
    rw [bind_of_ok ((alt_of_error h1).trans h2)]
    rfl

theorem parseIdentifier_reads {w r : List Char} (hw : IdentWord u w) (hr : Unident u r) :
    parseIdentifier u (w ++ r) = .ok r (String.ofList w) := by
  obtain ⟨c, cs, rfl, hc, hcs⟩ := hw
  rw [List.cons_append, parseIdentifier_eq hc, dropWhile_append_of_all hcs,
    takeWhile_append_of_all hcs, dropWhile_of_head hr, takeWhile_of_head hr, List.append_nil]

theorem parseIdentifier_error {s : List Char}
    (h : ∀ c ∈ s.head?, c.isAlpha = false ∧ c ≠ '_') : parseIdentifier u s = .error := by
  unfold parseIdentifier
  have h1 : takeWhile1 Char.isAlpha s = .error := by
    rw [takeWhile1, takeWhile_of_head fun c hc => (h c hc).1]
    rfl
  have h2 : value ['_'] (tag ['_']) s = .error := by
    refine bind_of_error (char_error ?_)
    intro hs
    exact (h '_' hs).2 rfl
  exact bind_of_error ((alt_of_error h1).trans h2)

theorem parseIdentifier_ok {s rest : List Char} {a : String}
    (h : parseIdentifier u s = .ok rest a) :
    ∃ w, s = w ++ rest ∧ IdentWord u w ∧ Unident u rest := by
  by_cases hs : ∀ c ∈ s.head?, c.isAlpha = false ∧ c ≠ '_'
  · rw [parseIdentifier_error hs] at h
    cases h
  · cases s with
    | nil => simp at hs
    | cons c s =>
      have hc : c.isAlpha = true ∨ c = '_' := by
        by_cases ha : c.isAlpha = true
        · exact .inl ha
        · right
          simpa [ha] using hs
      rw [parseIdentifier_eq hc] at h
      cases h
      refine ⟨c :: s.takeWhile u.identChar, ?_, ⟨c, _, rfl, hc, all_takeWhile s⟩, head_dropWhile s⟩
      rw [List.cons_append, List.takeWhile_append_dropWhile]

end Ident

/-! ## Values -/

theorem quoted_reads {body : List Char} (hne : body ≠ []) (hb : ∀ c ∈ body, c ≠ q)
    (r : List Char) : quoted q (q :: (body ++ (q :: r))) = .ok r body := by
  have hall : ∀ c ∈ body, (c != q) = true := fun c hc => by simpa using hb c hc
  have hhead : ∀ c ∈ (q :: r).head?, (c != q) = false := by
    intro c hc
    obtain rfl : q = c := by simpa using hc
    simp
  have h1 : takeWhile1 (· != q) (body ++ (q :: r)) = .ok (q :: r) body := by
    rw [takeWhile1, takeWhile_append_of_all hall, dropWhile_append_of_all hall,
      takeWhile_of_head hhead, dropWhile_of_head hhead, List.append_nil, if_neg (by simpa using hne)]
  unfold quoted delimited
  rw [bind_of_ok (char_cons q _), bind_of_ok h1, bind_of_ok (char_cons q r)]
  rfl

variable {f : Char → Bool}

theorem takeWhile1_ok (h : takeWhile1 f s = .ok rest w) :
    s = w ++ rest ∧ w ≠ [] ∧ (∀ c ∈ w, f c = true) ∧ ∀ c ∈ rest.head?, f c = false := by
  unfold takeWhile1 at h
  split at h
  · cases h
  · next hne =>
    cases h
    exact ⟨List.takeWhile_append_dropWhile.symm, by simpa using hne, all_takeWhile s,
      head_dropWhile s⟩

theorem quoted_ok {s rest body : List Char} (h : quoted q s = .ok rest body) :
    s = q :: (body ++ (q :: rest)) ∧ body ≠ [] ∧ ∀ c ∈ body, c ≠ q := by
  obtain ⟨s₁, _, h1, h⟩ := bind_ok h
  obtain ⟨s₂, body', h2, h⟩ := bind_ok h
  obtain ⟨s₃, _, h3, h⟩ := bind_ok h
  cases h
  obtain rfl := char_ok h1
  obtain ⟨rfl, hne, hall, -⟩ := takeWhile1_ok h2
  obtain rfl := char_ok h3
  exact ⟨rfl, hne, fun c hc => by simpa using hall c hc⟩

theorem quoted_error (h : s.head? ≠ some q) : quoted q s = .error :=
  bind_of_error (char_error h)

/-- The kind of a parsed value: a plain JSON value or not. -/
def ParsedValue.isJson : ParsedValue → Bool
  | .json _ => true
  | _ => false

theorem parseStringLiteral_reads {pattern : Bool} (h : StringWord w pattern) (r : List Char) :
    ∃ v : ParsedValue, parseStringLiteral (w ++ r) = .ok r v ∧ v.isJson = !pattern := by
  obtain ⟨q, body, hq, hne, hb, rfl, rfl⟩ := h
  have hbody : alt (quoted '\'') (quoted (Char.ofNat 34)) ((q :: (body ++ [q])) ++ r) =
      .ok r body := by
    have hr := quoted_reads hne hb r
    simp only [List.cons_append, List.append_assoc, List.nil_append]
    rcases hq with rfl | rfl
    · exact alt_of_ok hr
    · rw [alt_of_error (quoted_error (by simp))]
      exact hr
  unfold parseStringLiteral
  rw [bind_of_ok hbody]
  by_cases hl : body.getLast? = some '*'
  · rw [if_pos hl]
    exact ⟨_, rfl, by simp [hl, ParsedValue.isJson]⟩
  · rw [if_neg hl]
    exact ⟨_, rfl, by simp [hl, ParsedValue.isJson]⟩

theorem parseStringLiteral_ok {v : ParsedValue} (h : parseStringLiteral s = .ok rest v) :
    ∃ w pattern, s = w ++ rest ∧ StringWord w pattern ∧ v.isJson = !pattern := by
  obtain ⟨s₁, body, h1, h2⟩ := bind_ok h
  have hq : ∃ q, (q = '\'' ∨ q = Char.ofNat 34) ∧ quoted q s = .ok s₁ body := by
    rcases alt_ok h1 with h1 | ⟨-, h1⟩
    · exact ⟨_, .inl rfl, h1⟩
    · exact ⟨_, .inr rfl, h1⟩
  obtain ⟨q, hq, h1⟩ := hq
  obtain ⟨rfl, hne, hb⟩ := quoted_ok h1
  refine ⟨q :: (body ++ [q]), decide (body.getLast? = some '*'), ?_,
    ⟨q, body, hq, hne, hb, rfl, rfl⟩, ?_⟩
  · split at h2 <;> cases h2 <;> simp
  · split at h2
    · next hl =>
      cases h2
      simp [hl, ParsedValue.isJson]
    · next hl =>
      cases h2
      simp [hl, ParsedValue.isJson]

theorem parseStringLiteral_error
    (h : ∀ c ∈ s.head?, c ≠ '\'' ∧ c ≠ Char.ofNat 34) : parseStringLiteral s = .error := by
  have h1 : quoted '\'' s = .error := quoted_error fun hs => (h _ hs).1 rfl
  have h2 : quoted (Char.ofNat 34) s = .error := quoted_error fun hs => (h _ hs).2 rfl
  exact bind_of_error ((alt_of_error h1).trans h2)

theorem takeWhile1_reads (hne : w ≠ [])
    (hw : ∀ c ∈ w, f c = true) (hr : ∀ c ∈ r.head?, f c = false) :
    takeWhile1 f (w ++ r) = .ok r w := by
  rw [takeWhile1, takeWhile_append_of_all hw, dropWhile_append_of_all hw, takeWhile_of_head hr,
    dropWhile_of_head hr, List.append_nil, if_neg (by simpa using hne)]

theorem takeWhile1_error (h : ∀ c ∈ s.head?, f c = false) :
    takeWhile1 f s = .error := by
  rw [takeWhile1, takeWhile_of_head h]
  rfl

/-- A keyword that is no prefix of a word is not read at a place where the word stands. -/
theorem tagNoCase_error_of_word {u : Unicode}
    (hk : ∀ c ∈ k.toList, c.isAlpha = true) (hw : ∀ a b, w = a ++ b → ¬ Keyword k a)
    (hr : Unident u r) : tagNoCase k.toList (w ++ r) = .error := by
  rcases tagBy_cases (fun c d => c.toLower == d.toLower) k.toList (w ++ r) with h | ⟨rest, h⟩
  · exact h
  · obtain ⟨a, he, ha⟩ := tagNoCase_ok h
    rcases List.append_eq_append_iff.mp he with ⟨m, rfl, hm⟩ | ⟨m, rfl, -⟩
    · cases m with
      | nil => exact absurd ha (hw w [] (by simp) ∘ by simp)
      | cons c m =>
        have hc := identChar_of_isAlpha (u := u) (ha.alpha hk c (by simp))
        rw [hr c (by rw [hm]; rfl)] at hc
        cases hc
    · exact absurd ha (hw a m rfl)

section Values

variable {u : Unicode}

/-- What may follow a value: nothing it would have read on into. -/
def AfterValue (u : Unicode) (g : Bool) (r : List Char) : Prop :=
  (∀ c ∈ r.head?, c.isDigit = false) ∧ (g = true → Unident u r)

/-- The `$param` alternative of a value. -/
def paramValue (u : Unicode) : Parser ParsedValue := do
  let s ← preceded (char '$') (parseIdentifier u)
  pure (.json (.object [("$param", .str s)]))

/-- The number alternative of a value. -/
def numberValue : Parser ParsedValue :=
  mapRes (takeWhile1 Char.isDigit) fun s =>
    (parseBelow (2 ^ 63) s).map fun n : Nat => .json (.int n)

/-- The identifier alternative of a value. -/
def identValue (u : Unicode) : Parser ParsedValue := do
  let s ← parseIdentifier u
  pure (.identifier s)

theorem parseValueEntry_eq : parseValueEntry u =
    alt parseStringLiteral (alt (paramValue u)
      (alt (value (.json (.bool true)) (tagNoCase "true".toList))
        (alt (value (.json (.bool false)) (tagNoCase "false".toList))
          (alt numberValue (alt (identValue u) reject))))) := rfl

variable {s w : List Char}

theorem paramValue_error (h : s.head? ≠ some '$') : paramValue u s = .error :=
  bind_of_error (bind_of_error (char_error h))

theorem numberValue_error (h : ∀ c ∈ s.head?, c.isDigit = false) :
    numberValue s = .error := bind_of_error (takeWhile1_error h)

theorem StringWord.head {pattern : Bool} (h : StringWord w pattern) :
    ∃ q ds, w = q :: ds ∧ (q = '\'' ∨ q = Char.ofNat 34) := by
  obtain ⟨q, body, hq, -, -, rfl, -⟩ := h
  exact ⟨q, _, rfl, hq⟩

/-- Letters and the other leading characters are apart. -/
theorem alpha_lead {c : Char} (h : c.isAlpha = true) :
    c ≠ '\'' ∧ c ≠ Char.ofNat 34 ∧ c ≠ '$' ∧ c.isDigit = false ∧ c ≠ '(' ∧
      isMultispace c = false := by
  refine ⟨?_, ?_, ?_, ?_, ?_, ?_⟩
  · rintro rfl
    exact absurd h (by decide)
  · rintro rfl
    exact absurd h (by decide)
  · rintro rfl
    exact absurd h (by decide)
  · by_contra hd
    simp only [Char.isAlpha, Char.isUpper, Char.isLower, Char.isDigit, Bool.or_eq_true,
      Bool.and_eq_true, decide_eq_true_eq, UInt32.le_iff_toNat_le, ge_iff_le,
      Bool.not_eq_false] at h hd
    have h1 : 'A'.val.toNat = 65 := rfl
    have h2 : 'a'.val.toNat = 97 := rfl
    have h3 : '9'.val.toNat = 57 := rfl
    omega
  · rintro rfl
    exact absurd h (by decide)
  · by_contra hm
    simp only [isMultispace, Bool.not_eq_false, Bool.or_eq_true, beq_iff_eq] at hm
    rcases hm with ((rfl | rfl) | rfl) | rfl <;> exact absurd h (by decide)

theorem Keyword.alphaHead {k : String} (h : Keyword k w)
    (hk : ∀ c ∈ k.toList, c.isAlpha = true) (hne : k.toList ≠ []) :
    ∃ d ds, w = d :: ds ∧ d.isAlpha = true := by
  obtain ⟨c, hc⟩ : ∃ c, k.toList.head? = some c := by
    cases ht : k.toList with
    | nil => exact absurd ht hne
    | cons c t => exact ⟨c, rfl⟩
  obtain ⟨d, ds, rfl, -⟩ := h.head hc
  exact ⟨d, ds, rfl, h.alpha hk d List.mem_cons_self⟩

theorem IdentWord.lead (h : IdentWord u w) :
    ∃ c cs, w = c :: cs ∧ c ≠ '\'' ∧ c ≠ Char.ofNat 34 ∧ c ≠ '$' ∧ c.isDigit = false ∧ c ≠ '(' ∧
      isMultispace c = false := by
  obtain ⟨c, cs, rfl, hc, -⟩ := h
  rcases hc with hc | rfl
  · exact ⟨c, cs, rfl, alpha_lead hc⟩
  · exact ⟨'_', cs, rfl, by decide⟩

theorem head_cons_append {P : Char → Prop} {c : Char} {t r : List Char} (h : P c) :
    ∀ d ∈ ((c :: t) ++ r).head?, P d := by
  intro d hd
  obtain rfl : c = d := by simpa using hd
  exact h

/-- A value is read to its end. -/
theorem parseValueEntry_reads {v r : List Char} {g j : Bool} (h : ValueWord u v g j)
    (hr : AfterValue u g r) :
    ∃ x : ParsedValue, parseValueEntry u (v ++ r) = .ok r x ∧ x.isJson = j := by
  have htrue : ∀ c ∈ "true".toList, c.isAlpha = true := List.all_eq_true.mp (by decide)
  have hfalse : ∀ c ∈ "false".toList, c.isAlpha = true := List.all_eq_true.mp (by decide)
  rw [parseValueEntry_eq]
  cases h with
  | string hw =>
    obtain ⟨x, hx, hj⟩ := parseStringLiteral_reads hw r
    exact ⟨x, alt_of_ok hx, hj⟩
  | @param i hi =>
    have hlit : parseStringLiteral ('$' :: (i ++ r)) = .error :=
      parseStringLiteral_error (head_cons_append (t := i) (by decide))
    refine ⟨.json (.object [("$param", .str (String.ofList i))]), ?_, rfl⟩
    rw [List.cons_append, alt_of_error hlit, alt_of_ok]
    have hword : preceded (char '$') (parseIdentifier u) ('$' :: (i ++ r)) =
        .ok r (String.ofList i) := by
      rw [preceded_of_ok (char_cons '$' _)]
      exact parseIdentifier_reads hi (hr.2 rfl)
    exact bind_of_ok hword
  | isTrue hk =>
    obtain ⟨d, ds, rfl, hd⟩ := hk.alphaHead htrue (by decide)
    have hl := alpha_lead hd
    rw [alt_of_error (parseStringLiteral_error (head_cons_append ⟨hl.1, hl.2.1⟩)),
      alt_of_error (paramValue_error (by simpa using hl.2.2.1))]
    exact ⟨.json (.bool true), alt_of_ok (value_of_ok (tagNoCase_reads hk r)), rfl⟩
  | isFalse hk =>
    obtain ⟨d, ds, rfl, hd⟩ := hk.alphaHead hfalse (by decide)
    have hl := alpha_lead hd
    have hno : tagNoCase "true".toList ((d :: ds) ++ r) = .error := by
      obtain ⟨d', ds', he, hlow⟩ := hk.head (c := 'f') (by decide)
      obtain ⟨rfl, rfl⟩ := List.cons.inj he
      refine tagNoCase_error (c := 't') (by decide) (head_cons_append ?_)
      rw [hlow]
      decide
    rw [alt_of_error (parseStringLiteral_error (head_cons_append ⟨hl.1, hl.2.1⟩)),
      alt_of_error (paramValue_error (by simpa using hl.2.2.1)),
      alt_of_error (value_of_error hno)]
    exact ⟨.json (.bool false), alt_of_ok (value_of_ok (tagNoCase_reads hk r)), rfl⟩
  | number hne hd hlt =>
    obtain ⟨c, cs, rfl⟩ : ∃ c cs, v = c :: cs := List.exists_cons_of_ne_nil hne
    have hc := hd c List.mem_cons_self
    have hlow : ∀ x : Char, x.isAlpha = true → c.toLower ≠ x.toLower := by
      intro x hx he
      have hca : c.isAlpha = true := by rw [← isAlpha_toLower, he, isAlpha_toLower, hx]
      rw [(alpha_lead hca).2.2.2.1] at hc
      cases hc
    have hlead : c ≠ '\'' ∧ c ≠ Char.ofNat 34 ∧ c ≠ '$' := by
      refine ⟨?_, ?_, ?_⟩
      · rintro rfl
        exact absurd hc (by decide)
      · rintro rfl
        exact absurd hc (by decide)
      · rintro rfl
        exact absurd hc (by decide)
    have hno1 : tagNoCase "true".toList ((c :: cs) ++ r) = .error :=
      tagNoCase_error (c := 't') (by decide) (head_cons_append (hlow 't' (by decide)))
    have hno2 : tagNoCase "false".toList ((c :: cs) ++ r) = .error :=
      tagNoCase_error (c := 'f') (by decide) (head_cons_append (hlow 'f' (by decide)))
    refine ⟨.json (.int (digitsValue (c :: cs))), ?_, rfl⟩
    rw [alt_of_error (parseStringLiteral_error (head_cons_append ⟨hlead.1, hlead.2.1⟩)),
      alt_of_error (paramValue_error (by simpa using hlead.2.2)),
      alt_of_error (value_of_error hno1), alt_of_error (value_of_error hno2), alt_of_ok]
    have hbelow : parseBelow (2 ^ 63) (c :: cs) = some (digitsValue (c :: cs)) := if_pos hlt
    refine mapRes_of_ok (takeWhile1_reads hne hd hr.1) ?_
    rw [hbelow]
    rfl
  | ident hi ht hf =>
    obtain ⟨c, cs, rfl, hl⟩ := hi.lead
    have hno1 := tagNoCase_error_of_word (u := u) htrue ht (hr.2 rfl)
    have hno2 := tagNoCase_error_of_word (u := u) hfalse hf (hr.2 rfl)
    refine ⟨.identifier (String.ofList (c :: cs)), ?_, rfl⟩
    rw [alt_of_error (parseStringLiteral_error (head_cons_append ⟨hl.1, hl.2.1⟩)),
      alt_of_error (paramValue_error (by simpa using hl.2.2.1)),
      alt_of_error (value_of_error hno1), alt_of_error (value_of_error hno2),
      alt_of_error (numberValue_error (head_cons_append hl.2.2.2.1)), alt_of_ok]
    exact bind_of_ok (parseIdentifier_reads hi (hr.2 rfl))

/-- What is read as a value is one. -/
theorem parseValueEntry_ok {s rest : List Char} {x : ParsedValue}
    (h : parseValueEntry u s = .ok rest x) :
    ∃ v g j, s = v ++ rest ∧ ValueWord u v g j ∧ (g = true → Unident u rest) ∧ x.isJson = j := by
  have hno : ∀ k : String, tagNoCase k.toList s = .error → ∀ w a b, s = w ++ rest → w = a ++ b →
      ¬ Keyword k a := by
    intro k herr w a b hs hw hk
    rw [hs, hw, List.append_assoc, tagNoCase_reads hk] at herr
    cases herr
  rw [parseValueEntry_eq] at h
  rcases alt_ok h with h | ⟨-, h⟩
  · obtain ⟨w, pattern, hs, hw, hj⟩ := parseStringLiteral_ok h
    exact ⟨w, false, !pattern, hs, .string hw, by simp, hj⟩
  rcases alt_ok h with h | ⟨-, h⟩
  · obtain ⟨s₁, i, h1, h2⟩ := bind_ok h
    cases h2
    obtain ⟨s₂, _, h1, h2⟩ := preceded_ok h1
    obtain ⟨i, rfl, hi, hr⟩ := parseIdentifier_ok h2
    exact ⟨'$' :: i, true, true, char_ok h1, .param hi, fun _ => hr, rfl⟩
  rcases alt_ok h with h | ⟨ht, h⟩
  · obtain ⟨rfl, _, h1⟩ := value_ok h
    obtain ⟨w, hs, hw⟩ := tagNoCase_ok h1
    exact ⟨w, false, true, hs, .isTrue hw, by simp, rfl⟩
  rcases alt_ok h with h | ⟨hf, h⟩
  · obtain ⟨rfl, _, h1⟩ := value_ok h
    obtain ⟨w, hs, hw⟩ := tagNoCase_ok h1
    exact ⟨w, false, true, hs, .isFalse hw, by simp, rfl⟩
  rcases alt_ok h with h | ⟨-, h⟩
  · obtain ⟨w, h1, h2⟩ := mapRes_ok h
    obtain ⟨hs, hne, hd, -⟩ := takeWhile1_ok h1
    obtain ⟨n, hn, rfl⟩ := Option.map_eq_some_iff.mp h2
    unfold parseBelow at hn
    split at hn
    · next hlt => exact ⟨w, false, true, hs, .number hne hd hlt, by simp, rfl⟩
    · cases hn
  rcases alt_ok h with h | ⟨-, h⟩
  · obtain ⟨s₁, i, h1, h2⟩ := bind_ok h
    cases h2
    obtain ⟨w, hs, hw, hr⟩ := parseIdentifier_ok h1
    have htag : ∀ {k : String} {a : ParsedValue}, value a (tagNoCase k.toList) s = .error →
        tagNoCase k.toList s = .error := by
      intro k a he
      rcases tagBy_cases (fun c d => c.toLower == d.toLower) k.toList s with h | ⟨r, h⟩
      · exact h
      · have hk : tagNoCase k.toList s = .ok r () := h
        rw [value_of_ok hk] at he
        cases he
    exact ⟨w, true, false, hs, .ident hw (fun a b hab => hno "true" (htag ht) w a b hs hab)
      fun a b hab => hno "false" (htag hf) w a b hs hab, fun _ => hr, rfl⟩
  · cases h

end Values

/-! ## Operators -/

theorem symbolOps_reads {o r : List Char} (ho : o ∈ symbolWords) (hr : r.head? ≠ some '=')
    (ps : List (Parser RawOp)) :
    ∃ op, altAll (symbolOps ++ ps) (o ++ r) = .ok r (.cmp op) := by
  have hne : ∀ (c : Char) (op : RawOp), value op (tag [c, '=']) (c :: r) = .error := by
    intro c op
    refine value_of_error ?_
    cases r with
    | nil => simp [tag, tagBy]
    | cons d r =>
      have hd : ('=' == d) = false := by
        rw [beq_eq_false_iff_ne]
        rintro rfl
        exact hr rfl
      simp [tag, tagBy, hd]
  have herr : ∀ (c d : Char) (t s : List Char) (op : RawOp), d ≠ c →
      value op (tag (c :: t)) (d :: s) = .error := by
    intro c d t s op hcd
    refine value_of_error (tagBy_error_head fun x hx => ?_)
    obtain rfl : d = x := by simpa using hx
    rw [beq_eq_false_iff_ne]
    exact fun h => hcd h.symm
  simp only [symbolWords, List.mem_cons, List.not_mem_nil, or_false] at ho
  rcases ho with rfl | rfl | rfl | rfl | rfl | rfl
  · exact ⟨.gte, altAll_of_ok [] (by simp) (value_of_ok (tag_append ['>', '='] r))⟩
  · refine ⟨.lte, altAll_of_ok [_] ?_ (value_of_ok (tag_append ['<', '='] r))⟩
    simpa using herr _ _ _ _ _ (by decide)
  · refine ⟨.neq, altAll_of_ok [_, _] ?_ (value_of_ok (tag_append ['!', '='] r))⟩
    simp only [List.mem_cons, List.not_mem_nil, or_false, forall_eq_or_imp, forall_eq]
    exact ⟨herr _ _ _ _ _ (by decide), herr _ _ _ _ _ (by decide)⟩
  · refine ⟨.eq, altAll_of_ok [_, _, _] ?_ (value_of_ok (tag_append ['='] r))⟩
    simp only [List.mem_cons, List.not_mem_nil, or_false, forall_eq_or_imp, forall_eq]
    exact ⟨herr _ _ _ _ _ (by decide), herr _ _ _ _ _ (by decide), herr _ _ _ _ _ (by decide)⟩
  · refine ⟨.gt, altAll_of_ok [_, _, _, _] ?_ (value_of_ok (tag_append ['>'] r))⟩
    simp only [List.mem_cons, List.not_mem_nil, or_false, forall_eq_or_imp, forall_eq]
    exact ⟨hne _ _, herr _ _ _ _ _ (by decide), herr _ _ _ _ _ (by decide),
      herr _ _ _ _ _ (by decide)⟩
  · refine ⟨.lt, altAll_of_ok [_, _, _, _, _] ?_ (value_of_ok (tag_append ['<'] r))⟩
    simp only [List.mem_cons, List.not_mem_nil, or_false, forall_eq_or_imp, forall_eq]
    exact ⟨herr _ _ _ _ _ (by decide), hne _ _, herr _ _ _ _ _ (by decide),
      herr _ _ _ _ _ (by decide), herr _ _ _ _ _ (by decide)⟩

theorem symbolOps_skip (hc : s.head? = some c) (ha : c.isAlpha = true)
    (ps : List (Parser RawOp)) : altAll (symbolOps ++ ps) s = altAll ps s := by
  have herr : ∀ (d : Char) (t : List Char) (op : RawOp), d.isAlpha = false →
      value op (tag (d :: t)) s = .error := by
    intro d t op hd
    refine value_of_error (tagBy_error_head fun x hx => ?_)
    obtain rfl : c = x := by simpa [hc] using hx
    rw [beq_eq_false_iff_ne]
    rintro rfl
    rw [ha] at hd
    cases hd
  refine altAll_skip ?_
  simp only [symbolOps, List.mem_cons, List.not_mem_nil, or_false]
  rintro p (rfl | rfl | rfl | rfl | rfl | rfl) <;> exact herr _ _ _ (by decide)

theorem symbolOps_ok {ps : List (Parser RawOp)} {op : RawOp}
    (h : altAll (symbolOps ++ ps) s = .ok rest op) :
    (∃ o ∈ symbolWords, s = o ++ rest ∧ ∃ c, op = .cmp c) ∨ ∃ p ∈ ps, p s = .ok rest op := by
  obtain ⟨p, hp, h⟩ := altAll_ok h
  rcases List.mem_append.mp hp with hp | hp
  · left
    simp only [symbolOps, List.mem_cons, List.not_mem_nil, or_false] at hp
    rcases hp with rfl | rfl | rfl | rfl | rfl | rfl <;>
    · obtain ⟨rfl, _, h1⟩ := value_ok h
      exact ⟨_, by simp [symbolWords], tag_ok h1, _, rfl⟩
  · exact .inr ⟨p, hp, h⟩

/-! ## Lists of strings -/

theorem StringWord.unblank {pattern : Bool} (h : StringWord w pattern)
    (r : List Char) : Unblank (w ++ r) := by
  obtain ⟨q, ds, rfl, hq⟩ := h.head
  rw [List.cons_append]
  refine unblank_cons ?_
  rcases hq with rfl | rfl <;> decide

/-- One member of the list with its blanks. -/
theorem member_reads {b w b' r : List Char} (hb : Blanks b) (hw : StringWord w false)
    (hb' : Blanks b') (hr : Unblank r) :
    ∃ v : ParsedValue, ws parseStringLiteral (b ++ (w ++ (b' ++ r))) = .ok r v ∧
      v.isJson = true := by
  obtain ⟨v, hv, hj⟩ := parseStringLiteral_reads hw (b' ++ r)
  exact ⟨v, ws_of_ok hb (hw.unblank _) hv hb' hr, hj⟩

theorem members_reads (h : MembersWord s) (r : List Char) :
    ∃ s₁ v l, ws parseStringLiteral (s ++ r) = .ok s₁ v ∧ s₁.length ≤ (s ++ r).length ∧
      SepRun (ws (char ',')) (ws parseStringLiteral) s₁ (']' :: r) l ∧
      (∀ x ∈ v :: l, x.isJson = true) := by
  induction h with
  | @last b w b' hb hw hb' =>
    obtain ⟨v, hv, hj⟩ := member_reads hb hw hb' (unblank_cons (s := r) (c := ']') (by decide))
    refine ⟨']' :: r, v, [], by simpa using hv, by simp; omega, .stop ?_, by simpa using hj⟩
    exact ws_of_error (b := []) blanks_nil (unblank_cons (by decide)) (char_error (by simp))
  | @more b w b' s hb hw hb' _ ih =>
    obtain ⟨s₁, x, l, hx, hlen, hl, hall⟩ := ih
    obtain ⟨v, hv, hj⟩ := member_reads hb hw hb' (unblank_cons (s := s ++ r) (c := ',') (by decide))
    refine ⟨',' :: (s ++ r), v, x :: l, by simpa using hv, by simp; omega, ?_, ?_⟩
    · have hsep : ws (char ',') (',' :: (s ++ r)) = .ok ((s ++ r).dropWhile isMultispace) () :=
        ws_of_unblank (unblank_cons (by decide)) (char_cons ',' _)
      have hlen' := length_dropBlanks (s ++ r)
      have hx' : ws parseStringLiteral ((s ++ r).dropWhile isMultispace) = .ok s₁ x := by
        rw [ws_dropBlanks]
        exact hx
      refine .next hsep ?_ hx' ?_ hl
      · simp only [List.length_cons]
        omega
      · simp only [List.length_cons]
        omega
    · intro y hy
      rcases List.mem_cons.mp hy with rfl | hy
      · exact hj
      · exact hall y hy

theorem jsonMembers_some {items : List ParsedValue} (h : ∀ x ∈ items, x.isJson = true) :
    ∃ vs, jsonMembers items = some vs := by
  induction items with
  | nil => exact ⟨[], rfl⟩
  | cons x items ih =>
    obtain ⟨vs, hvs⟩ := ih (List.forall_mem_cons.mp h).2
    have hx := h x List.mem_cons_self
    cases x with
    | json v => exact ⟨v :: vs, by rw [jsonMembers, hvs]; rfl⟩
    | _ => cases hx

theorem isJson_of_jsonMembers {items : List ParsedValue} {vs : List Json}
    (h : jsonMembers items = some vs) : ∀ x ∈ items, x.isJson = true := by
  induction items generalizing vs with
  | nil => simp
  | cons x items ih =>
    cases x with
    | json v =>
      obtain ⟨ws, hws, -⟩ := Option.map_eq_some_iff.mp h
      intro y hy
      rcases List.mem_cons.mp hy with rfl | hy
      · rfl
      · exact ih hws y hy
    | _ => cases h

theorem parseStringArray_reads {s b r : List Char} (h : MembersWord s) (hb : Blanks b)
    (hr : Unblank r) : ∃ vs, parseStringArray ('[' :: (s ++ (b ++ r))) = .ok r vs := by
  obtain ⟨s₁, v, l, hv, -, hl, hall⟩ := members_reads h (b ++ r)
  obtain ⟨vs, hvs⟩ := jsonMembers_some hall
  have h1 : ws (char '[') ('[' :: (s ++ (b ++ r))) =
      .ok ((s ++ (b ++ r)).dropWhile isMultispace) () :=
    ws_of_unblank (unblank_cons (by decide)) (char_cons '[' _)
  have h2 : separatedList1 (ws (char ',')) (ws parseStringLiteral)
      ((s ++ (b ++ r)).dropWhile isMultispace) = .ok (']' :: (b ++ r)) (v :: l) :=
    separatedList1_of_run (by rw [ws_dropBlanks]; exact hv) hl
  have h3 : ws (char ']') (']' :: (b ++ r)) = .ok r () :=
    ws_of_ok (b := []) blanks_nil (unblank_cons (by decide)) (char_cons ']' _) hb hr
  refine ⟨vs, ?_⟩
  unfold parseStringArray
  rw [bind_of_ok h1, bind_of_ok h2, bind_of_ok h3, hvs]
  rfl

theorem members_ok {l : List ParsedValue}
    (h : SepChain (ws (char ',')) (ws parseStringLiteral) s (']' :: rest) l)
    (hall : ∀ x ∈ l, x.isJson = true) {b w b' : List Char} (hb : Blanks b)
    (hw : StringWord w false) (hb' : Blanks b') (hs : Unblank s) :
    ∃ m, MembersWord m ∧ b ++ (w ++ (b' ++ s)) = m ++ rest := by
  generalize he : ']' :: rest = t at h
  induction h generalizing b w b' with
  | stop s =>
    subst he
    exact ⟨b ++ (w ++ (b' ++ [']'])), .last hb hw hb', by simp⟩
  | next hsep hp _ ih =>
    obtain ⟨b₁, t₁, t₂, b₂, rfl, hb₁, -, h1, rfl, hb₂, -⟩ := ws_ok hsep
    obtain rfl := char_ok h1
    obtain ⟨b₃, t₃, t₄, b₄, hs', hb₃, -, h3, rfl, hb₄, hu⟩ := ws_ok hp
    obtain ⟨w', pattern, rfl, hw', hj⟩ := parseStringLiteral_ok h3
    have hpat : pattern = false := by
      have := hall _ List.mem_cons_self
      rw [hj] at this
      simpa using this
    subst hpat
    obtain rfl := hb₁.eq_nil hs
    obtain ⟨m, hm, he'⟩ := ih (List.forall_mem_cons.mp hall).2
      (hb₂.append hb₃) hw' hb₄ hu he
    refine ⟨b ++ (w ++ (b' ++ (',' :: m))), .more hb hw hb' hm, ?_⟩
    simp only [List.nil_append, List.append_assoc, List.cons_append] at he' ⊢
    rw [← he', hs']

theorem parseStringArray_ok {vs : List Json} (h : parseStringArray s = .ok rest vs) :
    ∃ b m b', s = b ++ ('[' :: (m ++ (b' ++ rest))) ∧ Blanks b ∧ MembersWord m ∧ Blanks b' ∧
      Unblank rest := by
  obtain ⟨s₁, _, h1, h⟩ := bind_ok h
  obtain ⟨s₂, items, h2, h⟩ := bind_ok h
  obtain ⟨s₃, _, h3, h⟩ := bind_ok h
  cases hj : jsonMembers items with
  | none =>
    simp only [hj] at h
    cases h
  | some vs' =>
    simp only [hj] at h
    cases h
    have hall := isJson_of_jsonMembers hj
    obtain ⟨b₁, t₁, t₂, b₂, rfl, hb₁, -, hc, rfl, hb₂, -⟩ := ws_ok h1
    obtain rfl := char_ok hc
    obtain ⟨t₃, v, l, hv, rfl, hl⟩ := separatedList1_ok h2
    obtain ⟨b₃, t₄, t₅, b₄, rfl, hb₃, -, hv, rfl, hb₄, hu⟩ := ws_ok hv
    obtain ⟨w, pattern, rfl, hw, hp⟩ := parseStringLiteral_ok hv
    have hpat : pattern = false := by
      have := hall _ List.mem_cons_self
      rw [hp] at this
      simpa using this
    subst hpat
    have hend : Unblank s₂ := hl.rest hu fun s₁ s₂ a ha => by
      obtain ⟨_, _, _, _, -, -, -, -, -, -, hu⟩ := ws_ok ha
      exact hu
    obtain ⟨b₅, t₆, t₇, b₆, rfl, hb₅, -, hc, rfl, hb₆, hr⟩ := ws_ok h3
    obtain rfl := char_ok hc
    obtain rfl := hb₅.eq_nil hend
    obtain ⟨m, hm, he⟩ := members_ok hl (List.forall_mem_cons.mp hall).2
      (hb₂.append hb₃) hw hb₄ hu
    refine ⟨b₁, m, b₆, ?_, hb₁, hm, hb₆, hr⟩
    rw [← he]
    simp

end Sp00ky.Ssp
