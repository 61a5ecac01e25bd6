/-
  Parser combinators over character lists, as `nom` 7 has them.

  A parser returns the rest of its input, a recoverable error, or a failure (after
  `cut`) that no alternative catches. `separatedList1` gives back what it has when a
  separator or the item after one is an error. Sequencing is the monad's, so a parse
  is taken apart with `bind_ok` and put together with `bind_of_ok`.
-/
import Mathlib.Data.List.TakeWhile

namespace Sp00ky.Lib

/-- `IResult`: `error` is `Err::Error`, `failure` is `Err::Failure`. -/
inductive PResult (α : Type) where
  | ok (rest : List Char) (value : α)
  | error
  | failure
deriving DecidableEq, Repr

/-- A parser on complete input. -/
def Parser (α : Type) : Type := List Char → PResult α

namespace Parser

variable {α β γ : Type}

instance : Monad Parser where
  pure a := fun s => .ok s a
  bind p f := fun s =>
    match p s with
    | .ok rest a => f a rest
    | .error => .error
    | .failure => .failure

/-- The parser that always backtracks. -/
def reject : Parser α := fun _ => .error

/-- `alt` of two. -/
def alt (p q : Parser α) : Parser α := fun s =>
  match p s with
  | .error => q s
  | r => r

/-- `alt`. -/
def altAll : List (Parser α) → Parser α
  | [] => reject
  | p :: ps => alt p (altAll ps)

/-- `opt`. -/
def opt (p : Parser α) : Parser (Option α) := fun s =>
  match p s with
  | .ok rest a => .ok rest (some a)
  | .error => .ok s none
  | .failure => .failure

/-- `cut`. -/
def cut (p : Parser α) : Parser α := fun s =>
  match p s with
  | .error => .failure
  | r => r

/-- `take_while`. -/
def takeWhile (f : Char → Bool) : Parser (List Char) := fun s =>
  .ok (s.dropWhile f) (s.takeWhile f)

/-- `take_while1`. -/
def takeWhile1 (f : Char → Bool) : Parser (List Char) := fun s =>
  if (s.takeWhile f).isEmpty then .error else .ok (s.dropWhile f) (s.takeWhile f)

/-- `tag` up to a relation on characters. -/
def tagBy (same : Char → Char → Bool) : List Char → Parser Unit
  | [], s => .ok s ()
  | _ :: _, [] => .error
  | c :: cs, d :: s => if same c d then tagBy same cs s else .error

/-- `tag`. -/
def tag (t : List Char) : Parser Unit := tagBy (· == ·) t

/-- `tag_no_case` for a tag of letters and blanks: only ASCII letters fold to one. -/
def tagNoCase (t : List Char) : Parser Unit := tagBy (fun c d => c.toLower == d.toLower) t

/-- `value`. -/
def value (a : α) (p : Parser β) : Parser α := do
  let _ ← p
  pure a

/-- `char`. -/
def char (c : Char) : Parser Unit := tag [c]

/-- The blanks of `multispace0`. -/
def isMultispace (c : Char) : Bool := c == ' ' || c == '\t' || c == '\r' || c == '\n'

def multispace0 : Parser (List Char) := takeWhile isMultispace

/-- `delimited`. -/
def delimited (l : Parser β) (p : Parser α) (r : Parser γ) : Parser α := do
  let _ ← l
  let a ← p
  let _ ← r
  pure a

/-- `preceded`. -/
def preceded (l : Parser β) (p : Parser α) : Parser α := do
  let _ ← l
  p

/-- `map_res`. -/
def mapRes (p : Parser α) (f : α → Option β) : Parser β := do
  let a ← p
  match f a with
  | some b => pure b
  | none => reject

/-- `ws`: a parser between blanks. -/
def ws (p : Parser α) : Parser α := do
  let _ ← multispace0
  let a ← p
  let _ ← multispace0
  pure a

/-- The loop of `separated_list1`; each separator consumes, so the length bounds it. -/
def sepLoop (sep : Parser β) (p : Parser α) : Nat → List Char → List α → PResult (List α)
  | 0, s, acc => .ok s acc
  | fuel + 1, s, acc =>
    match sep s with
    | .error => .ok s acc
    | .failure => .failure
    | .ok s₁ _ =>
      if s₁.length = s.length then .error
      else
        match p s₁ with
        | .error => .ok s acc
        | .failure => .failure
        | .ok s₂ a => sepLoop sep p fuel s₂ (acc ++ [a])

/-- `separated_list1`. -/
def separatedList1 (sep : Parser β) (p : Parser α) : Parser (List α) := fun s =>
  match p s with
  | .error => .error
  | .failure => .failure
  | .ok s₁ a => sepLoop sep p (s₁.length + 1) s₁ [a]

/-! ## Taking a parse apart and putting it together -/

variable {p q : Parser α}

theorem bind_ok {f : α → Parser β} {s rest : List Char} {b : β}
    (h : (p >>= f) s = .ok rest b) : ∃ s₁ a, p s = .ok s₁ a ∧ f a s₁ = .ok rest b := by
  change (match p s with
    | .ok rest a => f a rest
    | .error => .error
    | .failure => .failure) = .ok rest b at h
  cases hp : p s with
  | ok s₁ a =>
    rw [hp] at h
    exact ⟨s₁, a, rfl, h⟩
  | error | failure => simp [hp] at h

variable {b s s₁ : List Char} {a : α}

theorem bind_of_ok {f : α → Parser β}
    (h : p s = .ok s₁ a) : (p >>= f) s = f a s₁ := by
  change (match p s with
    | .ok rest a => f a rest
    | .error => .error
    | .failure => .failure) = _
  rw [h]

theorem bind_congr_left {p p' : Parser α} {f : α → Parser β} {s s' : List Char} (h : p s = p' s') :
    (p >>= f) s = (p' >>= f) s' := by
  change (match p s with
    | .ok rest a => f a rest
    | .error => .error
    | .failure => .failure) = _
  rw [h]
  rfl

theorem bind_of_error {f : α → Parser β} (h : p s = .error) :
    (p >>= f) s = .error := by
  change (match p s with
    | .ok rest a => f a rest
    | .error => .error
    | .failure => .failure) = _
  rw [h]

theorem bind_of_failure {f : α → Parser β} (h : p s = .failure) :
    (p >>= f) s = .failure := by
  show (match p s with
    | .ok rest a => f a rest
    | .error => .error
    | .failure => .failure) = _
  rw [h]

variable {l sep : Parser β}

theorem preceded_of_ok {b : β}
    (h : l s = .ok s₁ b) : preceded l p s = p s₁ := bind_of_ok h

theorem preceded_of_error (h : l s = .error) :
    preceded l p s = .error := bind_of_error h

theorem preceded_ok {s rest : List Char}
    (h : preceded l p s = .ok rest a) : ∃ s₁ b, l s = .ok s₁ b ∧ p s₁ = .ok rest a := bind_ok h

theorem mapRes_of_ok {f : α → Option β} {b : β}
    (h : p s = .ok s₁ a) (hf : f a = some b) : mapRes p f s = .ok s₁ b := by
  unfold mapRes
  rw [bind_of_ok h]
  rw [hf]
  rfl

theorem mapRes_ok {f : α → Option β} {b : β}
    (h : mapRes p f s = .ok s₁ b) : ∃ a, p s = .ok s₁ a ∧ f a = some b := by
  obtain ⟨s₂, a, h1, h2⟩ := bind_ok h
  cases hf : f a with
  | some b' =>
    simp only [hf] at h2
    cases h2
    exact ⟨a, h1, hf⟩
  | none =>
    simp only [hf] at h2
    cases h2

theorem delimited_ok {r : Parser γ} {s rest : List Char}
    (h : delimited l p r s = .ok rest a) :
    ∃ s₁ s₂ b c, l s = .ok s₁ b ∧ p s₁ = .ok s₂ a ∧ r s₂ = .ok rest c := by
  obtain ⟨s₁, b, h1, h⟩ := bind_ok h
  obtain ⟨s₂, a', h2, h⟩ := bind_ok h
  obtain ⟨s₃, c, h3, h⟩ := bind_ok h
  cases h
  exact ⟨s₁, s₂, b, c, h1, h2, h3⟩

theorem delimited_of_ok {r : Parser γ} {s s₁ s₂ rest : List Char} {b : β} {c : γ} (h1 : l s = .ok s₁ b) (h2 : p s₁ = .ok s₂ a)
    (h3 : r s₂ = .ok rest c) : delimited l p r s = .ok rest a := by
  unfold delimited
  rw [bind_of_ok h1, bind_of_ok h2, bind_of_ok h3]
  rfl

theorem value_of_ok {p : Parser β} {b : β} (h : p s = .ok s₁ b) :
    value a p s = .ok s₁ a := bind_of_ok h

theorem value_of_error {p : Parser β} (h : p s = .error) :
    value a p s = .error := bind_of_error h

theorem value_ok {a a' : α} {p : Parser β} (h : value a p s = .ok s₁ a') :
    a' = a ∧ ∃ b, p s = .ok s₁ b := by
  obtain ⟨s₂, b, h1, h2⟩ := bind_ok h
  cases h2
  exact ⟨rfl, b, h1⟩

theorem alt_of_ok (h : p s = .ok s₁ a) :
    alt p q s = .ok s₁ a := by
  rw [alt, h]

theorem alt_of_error (h : p s = .error) : alt p q s = q s := by
  rw [alt, h]

theorem alt_ok (h : alt p q s = .ok s₁ a) :
    p s = .ok s₁ a ∨ p s = .error ∧ q s = .ok s₁ a := by
  unfold alt at h
  cases hp : p s with
  | ok s₂ b =>
    rw [hp] at h
    exact .inl h
  | error =>
    rw [hp] at h
    exact .inr ⟨rfl, h⟩
  | failure => simp [hp] at h

theorem altAll_ok {ps : List (Parser α)} {s rest : List Char}
    (h : altAll ps s = .ok rest a) : ∃ p ∈ ps, p s = .ok rest a := by
  induction ps with
  | nil => cases h
  | cons p ps ih =>
    rcases alt_ok h with h | ⟨-, h⟩
    · exact ⟨p, List.mem_cons_self, h⟩
    · obtain ⟨q, hq, h⟩ := ih h
      exact ⟨q, List.mem_cons_of_mem _ hq, h⟩

/-- Alternatives that are errors are passed over. -/
theorem altAll_skip {ps qs : List (Parser α)} (h : ∀ p ∈ ps, p s = .error) :
    altAll (ps ++ qs) s = altAll qs s := by
  induction ps with
  | nil => rfl
  | cons p ps ih =>
    rw [List.cons_append, altAll, alt_of_error (h p List.mem_cons_self)]
    exact ih (List.forall_mem_cons.mp h).2

theorem altAll_of_ok (ps : List (Parser α)) {qs : List (Parser α)}
    {s rest : List Char} (h : ∀ q ∈ ps, q s = .error) (hp : p s = .ok rest a) :
    altAll (ps ++ (p :: qs)) s = .ok rest a := by
  rw [altAll_skip h]
  exact alt_of_ok hp

theorem opt_of_ok (h : p s = .ok s₁ a) :
    opt p s = .ok s₁ (some a) := by
  rw [opt, h]

theorem opt_of_error (h : p s = .error) :
    opt p s = .ok s none := by
  rw [opt, h]

theorem opt_of_failure (h : p s = .failure) :
    opt p s = .failure := by
  rw [opt, h]

theorem opt_ok {a : Option α} (h : opt p s = .ok s₁ a) :
    (∃ b, a = some b ∧ p s = .ok s₁ b) ∨ a = none ∧ s₁ = s ∧ p s = .error := by
  unfold opt at h
  cases hp : p s with
  | ok s₂ b =>
    rw [hp] at h
    cases h
    exact .inl ⟨b, rfl, rfl⟩
  | error =>
    rw [hp] at h
    cases h
    exact .inr ⟨rfl, rfl, rfl⟩
  | failure => simp [hp] at h

theorem cut_ok (h : cut p s = .ok s₁ a) :
    p s = .ok s₁ a := by
  unfold cut at h
  cases hp : p s with
  | ok s₂ b =>
    rw [hp] at h
    exact h
  | error | failure => simp [hp] at h

theorem cut_of_ok (h : p s = .ok s₁ a) :
    cut p s = .ok s₁ a := by
  rw [cut, h]

/-! ## Tags -/

/-- What a tag reads: a word of its length, the same character by character. -/
inductive SameWord (same : Char → Char → Bool) : List Char → List Char → Prop
  | nil : SameWord same [] []
  | cons {c d : Char} {t w : List Char} : same c d = true → SameWord same t w →
      SameWord same (c :: t) (d :: w)

variable {same : Char → Char → Bool}

theorem tagBy_ok {t s rest : List Char} {a : Unit}
    (h : tagBy same t s = .ok rest a) : ∃ w, s = w ++ rest ∧ SameWord same t w := by
  induction t generalizing s with
  | nil =>
    cases h
    exact ⟨[], rfl, .nil⟩
  | cons c t ih =>
    cases s with
    | nil => cases h
    | cons d s =>
      rw [tagBy] at h
      split at h
      · next hc =>
        obtain ⟨w, rfl, hw⟩ := ih h
        exact ⟨d :: w, rfl, .cons hc hw⟩
      · cases h

theorem tagBy_append {t w : List Char} (h : SameWord same t w)
    (r : List Char) : tagBy same t (w ++ r) = .ok r () := by
  induction h with
  | nil => rfl
  | cons hc _ ih =>
    rw [List.cons_append, tagBy, if_pos hc]
    exact ih

theorem tagBy_cases (same : Char → Char → Bool) (t s : List Char) :
    tagBy same t s = .error ∨ ∃ rest, tagBy same t s = .ok rest () := by
  induction t generalizing s with
  | nil => exact .inr ⟨s, rfl⟩
  | cons c t ih =>
    cases s with
    | nil => exact .inl rfl
    | cons d s =>
      rw [tagBy]
      split
      · exact ih s
      · exact .inl rfl

/-- A tag is an error where the first character differs. -/
theorem tagBy_error_head {c : Char} {t s : List Char}
    (h : ∀ d ∈ s.head?, same c d = false) : tagBy same (c :: t) s = .error := by
  cases s with
  | nil => rfl
  | cons d s =>
    rw [tagBy, if_neg]
    simp [h d rfl]

theorem tag_append (t r : List Char) : tag t (t ++ r) = .ok r () := by
  refine tagBy_append ?_ r
  induction t with
  | nil => exact .nil
  | cons c t ih => exact .cons (by simp) ih

theorem tag_ok {t s rest : List Char} {a : Unit} (h : tag t s = .ok rest a) : s = t ++ rest := by
  obtain ⟨w, rfl, hw⟩ := tagBy_ok h
  clear h
  have : t = w := by
    induction hw with
    | nil => rfl
    | cons hc _ ih =>
      rw [ih]
      simpa using hc
  rw [this]

theorem char_cons (c : Char) (r : List Char) : char c (c :: r) = .ok r () := tag_append [c] r

theorem char_ok {c : Char} {s rest : List Char} {a : Unit} (h : char c s = .ok rest a) :
    s = c :: rest := tag_ok h

theorem char_error {c : Char} (h : s.head? ≠ some c) : char c s = .error := by
  refine tagBy_error_head ?_
  intro d hd
  rw [beq_eq_false_iff_ne]
  rintro rfl
  exact h hd

/-! ## Blanks -/

/-- All blanks. -/
def Blanks (b : List Char) : Prop := ∀ c ∈ b, isMultispace c = true

/-- Not led by a blank. -/
def Unblank (s : List Char) : Prop := ∀ c ∈ s.head?, isMultispace c = false

theorem blanks_nil : Blanks [] := fun c hc => by cases hc

theorem Blanks.append {a b : List Char} (ha : Blanks a) (hb : Blanks b) : Blanks (a ++ b) :=
  fun c hc => (List.mem_append.mp hc).elim (ha c) (hb c)

theorem unblank_cons {c : Char} (h : isMultispace c = false) :
    Unblank (c :: s) := by
  intro d hd
  obtain rfl : c = d := by simpa using hd
  exact h

/-- Blanks before a text that is not led by one are none. -/
theorem Blanks.eq_nil (hb : Blanks b) (h : Unblank (b ++ s)) : b = [] := by
  cases b with
  | nil => rfl
  | cons c b =>
    have hc := hb c List.mem_cons_self
    rw [h c rfl] at hc
    cases hc

theorem multispace0_eq (s : List Char) :
    multispace0 s = .ok (s.dropWhile isMultispace) (s.takeWhile isMultispace) := rfl

variable {f : Char → Bool}

theorem dropWhile_append_of_all (hb : ∀ c ∈ b, f c = true)
    (s : List Char) : (b ++ s).dropWhile f = s.dropWhile f := by
  induction b with
  | nil => rfl
  | cons c b ih =>
    rw [List.cons_append, List.dropWhile_cons_of_pos (hb c List.mem_cons_self)]
    exact ih (List.forall_mem_cons.mp hb).2

theorem takeWhile_append_of_all (hb : ∀ c ∈ b, f c = true)
    (s : List Char) : (b ++ s).takeWhile f = b ++ s.takeWhile f := by
  induction b with
  | nil => rfl
  | cons c b ih =>
    rw [List.cons_append, List.takeWhile_cons_of_pos (hb c List.mem_cons_self), List.cons_append]
    rw [ih (List.forall_mem_cons.mp hb).2]

theorem dropWhile_of_head (h : ∀ c ∈ s.head?, f c = false) :
    s.dropWhile f = s := by
  cases s with
  | nil => rfl
  | cons c s =>
    rw [List.dropWhile_cons_of_neg]
    simp [h c rfl]

theorem takeWhile_of_head (h : ∀ c ∈ s.head?, f c = false) :
    s.takeWhile f = [] := by
  cases s with
  | nil => rfl
  | cons c s =>
    rw [List.takeWhile_cons_of_neg]
    simp [h c rfl]

theorem head_dropWhile (s : List Char) : ∀ c ∈ (s.dropWhile f).head?, f c = false := by
  induction s with
  | nil => simp
  | cons c s ih =>
    by_cases hc : f c = true
    · rw [List.dropWhile_cons_of_pos hc]
      exact ih
    · rw [List.dropWhile_cons_of_neg hc]
      intro d hd
      obtain rfl : c = d := by simpa using hd
      simpa using hc

theorem all_takeWhile (s : List Char) : ∀ c ∈ s.takeWhile f, f c = true := by
  intro c hc
  exact List.mem_takeWhile_imp hc

theorem multispace0_append (hb : Blanks b) (hs : Unblank s) :
    multispace0 (b ++ s) = .ok s b := by
  rw [multispace0_eq, dropWhile_append_of_all hb, takeWhile_append_of_all hb,
    dropWhile_of_head hs, takeWhile_of_head hs, List.append_nil]

theorem multispace0_ok {s rest b : List Char} (h : multispace0 s = .ok rest b) :
    s = b ++ rest ∧ Blanks b ∧ Unblank rest := by
  cases h
  exact ⟨(List.takeWhile_append_dropWhile).symm, all_takeWhile s, head_dropWhile s⟩

theorem ws_ok {s rest : List Char} (h : ws p s = .ok rest a) :
    ∃ b s₁ s₂ b', s = b ++ s₁ ∧ Blanks b ∧ Unblank s₁ ∧ p s₁ = .ok s₂ a ∧ s₂ = b' ++ rest ∧
      Blanks b' ∧ Unblank rest := by
  obtain ⟨s₁, b, h1, h⟩ := bind_ok h
  obtain ⟨s₂, a', h2, h⟩ := bind_ok h
  obtain ⟨s₃, b', h3, h⟩ := bind_ok h
  cases h
  obtain ⟨e1, hb, hu⟩ := multispace0_ok h1
  obtain ⟨e2, hb', hu'⟩ := multispace0_ok h3
  exact ⟨b, s₁, s₂, b', e1, hb, hu, h2, e2, hb', hu'⟩

theorem ws_of_ok {b s b' rest : List Char} (hb : Blanks b) (hs : Unblank s)
    (h : p s = .ok (b' ++ rest) a) (hb' : Blanks b') (hr : Unblank rest) :
    ws p (b ++ s) = .ok rest a := by
  unfold ws
  rw [bind_of_ok (multispace0_append hb hs), bind_of_ok h, bind_of_ok (multispace0_append hb' hr)]
  rfl

theorem ws_of_error (hb : Blanks b) (hs : Unblank s)
    (h : p s = .error) : ws p (b ++ s) = .error := by
  unfold ws
  rw [bind_of_ok (multispace0_append hb hs), bind_of_error h]

theorem ws_of_failure (hb : Blanks b) (hs : Unblank s)
    (h : p s = .failure) : ws p (b ++ s) = .failure := by
  unfold ws
  rw [bind_of_ok (multispace0_append hb hs), bind_of_failure h]

/-- Leading blanks do not matter to `ws`. -/
theorem ws_blanks (hb : Blanks b) (s : List Char) :
    ws p (b ++ s) = ws p s := by
  have h : multispace0 (b ++ s) = .ok (s.dropWhile isMultispace) (b ++ s.takeWhile isMultispace) := by
    rw [multispace0_eq, dropWhile_append_of_all hb, takeWhile_append_of_all hb]
  unfold ws
  rw [bind_of_ok h, bind_of_ok (multispace0_eq s)]

theorem ws_dropBlanks (p : Parser α) (s : List Char) :
    ws p (s.dropWhile isMultispace) = ws p s := by
  have h := ws_blanks (p := p) (all_takeWhile s) (s.dropWhile isMultispace)
  rw [List.takeWhile_append_dropWhile] at h
  exact h.symm

theorem ws_of_unblank (hs : Unblank s)
    (h : p s = .ok s₁ a) : ws p s = .ok (s₁.dropWhile isMultispace) a := by
  have h0 : multispace0 s = .ok s [] :=
    multispace0_append (b := []) (fun c hc => by cases hc) hs
  unfold ws
  rw [bind_of_ok h0, bind_of_ok h, bind_of_ok (multispace0_eq s₁)]
  rfl

theorem length_dropBlanks (s : List Char) : (s.dropWhile isMultispace).length ≤ s.length :=
  (List.dropWhile_suffix isMultispace).length_le

/-! ## Lists -/

/-- What the loop has read: separators and items in turn. -/
inductive SepChain (sep : Parser β) (p : Parser α) : List Char → List Char → List α → Prop
  | stop (s : List Char) : SepChain sep p s s []
  | next {s s₁ s₂ rest : List Char} {b : β} {a : α} {l : List α} : sep s = .ok s₁ b →
      p s₁ = .ok s₂ a → SepChain sep p s₂ rest l → SepChain sep p s rest (a :: l)

/-- A run of the loop that ends where no separator stands; everything read is consumed. -/
inductive SepRun (sep : Parser β) (p : Parser α) : List Char → List Char → List α → Prop
  | stop {s : List Char} : sep s = .error → SepRun sep p s s []
  | next {s s₁ s₂ rest : List Char} {b : β} {a : α} {l : List α} : sep s = .ok s₁ b →
      s₁.length < s.length → p s₁ = .ok s₂ a → s₂.length < s.length →
      SepRun sep p s₂ rest l → SepRun sep p s rest (a :: l)

theorem sepLoop_chain {fuel : Nat} {s rest : List Char}
    {acc l : List α} (h : sepLoop sep p fuel s acc = .ok rest l) :
    ∃ l', l = acc ++ l' ∧ SepChain sep p s rest l' := by
  induction fuel generalizing s acc with
  | zero =>
    cases h
    exact ⟨[], by simp, .stop _⟩
  | succ fuel ih =>
    rw [sepLoop] at h
    split at h
    · cases h
      exact ⟨[], by simp, .stop _⟩
    · cases h
    · next s₁ b hsep =>
      split at h
      · cases h
      · split at h
        · cases h
          exact ⟨[], by simp, .stop _⟩
        · cases h
        · next s₂ a hp =>
          obtain ⟨l', rfl, hl⟩ := ih h
          exact ⟨a :: l', by simp, .next hsep hp hl⟩

theorem SepRun.loop {s rest : List Char} {l : List α}
    (h : SepRun sep p s rest l) {fuel : Nat} (hf : s.length < fuel) (acc : List α) :
    sepLoop sep p fuel s acc = .ok rest (acc ++ l) := by
  induction h generalizing fuel acc with
  | stop hsep =>
    cases fuel with
    | zero => omega
    | succ fuel => rw [sepLoop, hsep, List.append_nil]
  | next hsep hlt hp hle _ ih =>
    cases fuel with
    | zero => omega
    | succ fuel =>
      rw [sepLoop, hsep]
      dsimp only
      rw [if_neg (by omega), hp]
      dsimp only
      rw [ih (by omega)]
      simp

/-- What holds of the rest after every item holds at the end. -/
theorem SepChain.rest {P : List Char → Prop} {s rest : List Char}
    {l : List α} (h : SepChain sep p s rest l) (hs : P s)
    (hp : ∀ s₁ s₂ a, p s₁ = .ok s₂ a → P s₂) : P rest := by
  induction h with
  | stop s => exact hs
  | next _ hp' _ ih => exact ih (hp _ _ _ hp')

theorem separatedList1_ok {s rest : List Char} {l : List α}
    (h : separatedList1 sep p s = .ok rest l) :
    ∃ s₁ a l', p s = .ok s₁ a ∧ l = a :: l' ∧ SepChain sep p s₁ rest l' := by
  unfold separatedList1 at h
  cases hp : p s with
  | ok s₁ a =>
    rw [hp] at h
    obtain ⟨l', rfl, hl⟩ := sepLoop_chain h
    exact ⟨s₁, a, l', rfl, rfl, hl⟩
  | error | failure => simp [hp] at h

theorem separatedList1_of_run {s s₁ rest : List Char}
    {l : List α} (h : p s = .ok s₁ a) (hl : SepRun sep p s₁ rest l) :
    separatedList1 sep p s = .ok rest (a :: l) := by
  rw [separatedList1, h]
  exact hl.loop (by omega) [a]

end Parser

end Sp00ky.Lib
