/-
  The parser of `WHERE` expressions reads exactly the words of the grammar.

  `word_reads` and `parseOrAt_sound` are the two directions: the parser reads a word
  to its end, and what it reads is a word.
-/
import Sp00ky.Ssp.WhereWords

namespace Sp00ky.Ssp

open Lib Lib.Parser

/-! ## Leaves -/

section Leaves

variable {u : Unicode}

/-- What may follow a term. -/
structure RestOk (u : Unicode) (g : Bool) (r : List Char) : Prop where
  unblank : Unblank r
  digit : ∀ c ∈ r.head?, c.isDigit = false
  ident : g = true → Unident u r

theorem blank_lead {c : Char} (h : isMultispace c = true) :
    u.identChar c = false ∧ c.isDigit = false ∧ c ≠ '=' := by
  simp only [isMultispace, Bool.or_eq_true, beq_iff_eq] at h
  rcases h with ((rfl | rfl) | rfl) | rfl <;>
    exact ⟨by rw [identChar_ascii (by decide)]; decide, by decide, by decide⟩

variable {b r v o k w s rest : List Char}

/-- A property of the leading character of blanks and what follows them. -/
theorem head_blanks {P : Char → Prop} (hb : Blanks b)
    (hP : ∀ c, isMultispace c = true → P c) (hr : b = [] → ∀ c ∈ r.head?, P c) :
    ∀ c ∈ (b ++ r).head?, P c := by
  cases b with
  | nil => exact hr rfl
  | cons c b => exact head_cons_append (hP c (hb c List.mem_cons_self))

variable {g j : Bool}

theorem afterValue_blanks (hb : Blanks b)
    (hr : RestOk u (g && b.isEmpty) r) : AfterValue u g (b ++ r) := by
  refine ⟨head_blanks hb (fun c hc => (blank_lead (u := u) hc).2.1) fun _ => hr.digit, ?_⟩
  intro hg
  refine head_blanks hb (fun c hc => (blank_lead hc).1) fun hnil => hr.ident ?_
  rw [hg, hnil]
  rfl

theorem ValueWord.lead (h : ValueWord u v g j) :
    ∃ c cs, v = c :: cs ∧ isMultispace c = false ∧ c ≠ '(' ∧ c ≠ '=' := by
  have hkey : ∀ (k : String) {w : List Char}, Keyword k w → (∀ c ∈ k.toList, c.isAlpha = true) →
      k.toList ≠ [] → ∃ c cs, w = c :: cs ∧ isMultispace c = false ∧ c ≠ '(' ∧ c ≠ '=' := by
    intro k w hw hk hne
    obtain ⟨d, ds, rfl, hd⟩ := hw.alphaHead hk hne
    have hl := alpha_lead hd
    refine ⟨d, ds, rfl, hl.2.2.2.2.2, hl.2.2.2.2.1, ?_⟩
    rintro rfl
    exact absurd hd (by decide)
  cases h with
  | string hw =>
    obtain ⟨q, ds, rfl, hq⟩ := hw.head
    rcases hq with rfl | rfl <;> exact ⟨_, ds, rfl, by decide⟩
  | param hi => exact ⟨'$', _, rfl, by decide⟩
  | isTrue hw => exact hkey "true" hw (List.all_eq_true.mp (by decide)) (by decide)
  | isFalse hw => exact hkey "false" hw (List.all_eq_true.mp (by decide)) (by decide)
  | number hne hd _ =>
    obtain ⟨c, cs, rfl⟩ := List.exists_cons_of_ne_nil hne
    have hc := hd c List.mem_cons_self
    refine ⟨c, cs, rfl, ?_, ?_, ?_⟩
    · by_contra hb
      rw [Bool.not_eq_false] at hb
      rw [(blank_lead (u := u) hb).2.1] at hc
      cases hc
    · rintro rfl
      exact absurd hc (by decide)
    · rintro rfl
      exact absurd hc (by decide)
  | ident hi _ _ =>
    obtain ⟨c, cs, rfl, hc, -⟩ := hi
    rcases hc with hc | rfl
    · have hl := alpha_lead hc
      refine ⟨c, cs, rfl, hl.2.2.2.2.2, hl.2.2.2.2.1, ?_⟩
      rintro rfl
      exact absurd hc (by decide)
    · exact ⟨'_', cs, rfl, by decide⟩

theorem symbolWords_lead (h : o ∈ symbolWords) :
    ∃ c cs, o = c :: cs ∧ c ∈ ['>', '<', '!', '='] ∧ isMultispace c = false := by
  simp only [symbolWords, List.mem_cons, List.not_mem_nil, or_false] at h
  rcases h with rfl | rfl | rfl | rfl | rfl | rfl <;> exact ⟨_, _, rfl, by decide, by decide⟩

theorem identChar_symbol {c : Char} (hc : c ∈ ['>', '<', '!', '=']) : u.identChar c = false := by
  simp only [List.mem_cons, List.not_mem_nil, or_false] at hc
  rcases hc with rfl | rfl | rfl | rfl <;>
  · rw [identChar_ascii (by decide)]
    decide

theorem Keyword.unblank {k : String} (h : Keyword k w)
    (hk : ∀ c ∈ k.toList, c.isAlpha = true) (hne : k.toList ≠ []) (r : List Char) :
    Unblank (w ++ r) := by
  obtain ⟨d, ds, rfl, hd⟩ := h.alphaHead hk hne
  rw [List.cons_append]
  exact unblank_cons (alpha_lead hd).2.2.2.2.2

theorem IdentWord.unblank (h : IdentWord u w) (r : List Char) :
    Unblank (w ++ r) := by
  obtain ⟨c, cs, rfl, hl⟩ := h.lead
  rw [List.cons_append]
  exact unblank_cons hl.2.2.2.2.2

theorem ValueWord.unblank (h : ValueWord u v g j) (r : List Char) :
    Unblank (v ++ r) := by
  obtain ⟨c, cs, rfl, hc, -⟩ := h.lead
  rw [List.cons_append]
  exact unblank_cons hc

/-- The operator of a field comparison. -/
def FieldOp (b o : List Char) : Prop :=
  o ∈ symbolWords ∨ b ≠ [] ∧ (Keyword "CONTAINS" o ∨ Keyword "INSIDE" o)

theorem FieldOp.unblank (h : FieldOp b o) (r : List Char) :
    Unblank (o ++ r) := by
  rcases h with h | ⟨-, h | h⟩
  · obtain ⟨c, cs, rfl, -, hc⟩ := symbolWords_lead h
    exact unblank_cons hc
  · exact h.unblank (List.all_eq_true.mp (by decide)) (by decide) r
  · exact h.unblank (List.all_eq_true.mp (by decide)) (by decide) r

theorem FieldOp.unident (h : FieldOp b o) (hb : Blanks b) (r : List Char) :
    Unident u (b ++ (o ++ r)) := by
  refine head_blanks hb (fun c hc => (blank_lead hc).1) fun hnil => ?_
  rcases h with h | ⟨hne, -⟩
  · obtain ⟨c, cs, rfl, hc, -⟩ := symbolWords_lead h
    exact head_cons_append (identChar_symbol hc)
  · exact absurd hnil hne

/-- A keyword whose first letter is another one is not read. -/
theorem Keyword.not_read {k : String} (h : Keyword k w) (k' : String) (c c' : Char)
    (hk : k.toList.head? = some c) (hk' : k'.toList.head? = some c')
    (hne : c.toLower ≠ c'.toLower) (r : List Char) : tagNoCase k'.toList (w ++ r) = .error := by
  obtain ⟨d, ds, rfl, hd⟩ := h.head hk
  refine tagNoCase_error hk' (head_cons_append ?_)
  rw [hd]
  exact hne

theorem parseCmpOp_reads (h : FieldOp b o) (hr : r.head? ≠ some '=') :
    ∃ op, parseCmpOp (o ++ r) = .ok r op := by
  rcases h with h | ⟨-, h | h⟩
  · obtain ⟨op, hop⟩ := symbolOps_reads h hr _
    exact ⟨_, hop⟩
  · obtain ⟨d, ds, rfl, hd⟩ := h.alphaHead (List.all_eq_true.mp (by decide)) (by decide)
    refine ⟨.contains, ?_⟩
    unfold parseCmpOp
    rw [symbolOps_skip (c := d) rfl hd]
    exact alt_of_ok (value_of_ok (tagNoCase_reads h r))
  · obtain ⟨d, ds, rfl, hd⟩ := h.alphaHead (List.all_eq_true.mp (by decide)) (by decide)
    refine ⟨.inside, ?_⟩
    unfold parseCmpOp
    rw [symbolOps_skip (c := d) rfl hd]
    refine altAll_of_ok [_] ?_ (value_of_ok (tagNoCase_reads h r))
    simpa using value_of_error (h.not_read "CONTAINS" 'I' 'C' (by decide) (by decide)
      (by decide) r)

theorem parseCmpOp_ok {op : RawOp} (h : parseCmpOp s = .ok rest op) :
    ∃ o, s = o ++ rest ∧ (o ∈ symbolWords ∨ Keyword "CONTAINS" o ∨ Keyword "INSIDE" o) := by
  rcases symbolOps_ok h with ⟨o, ho, hs, -⟩ | ⟨p, hp, h⟩
  · exact ⟨o, hs, .inl ho⟩
  · simp only [List.mem_cons, List.not_mem_nil, or_false] at hp
    rcases hp with rfl | rfl
    · obtain ⟨-, _, h1⟩ := value_ok h
      obtain ⟨o, hs, ho⟩ := tagNoCase_ok h1
      exact ⟨o, hs, .inr (.inl ho)⟩
    · obtain ⟨-, _, h1⟩ := value_ok h
      obtain ⟨o, hs, ho⟩ := tagNoCase_ok h1
      exact ⟨o, hs, .inr (.inr ho)⟩

theorem head_ne_eq (hb : Blanks b) (hv : ValueWord u v g j) :
    (b ++ (v ++ r)).head? ≠ some '=' := by
  obtain ⟨c, cs, rfl, -, -, hc⟩ := hv.lead
  have h := head_blanks (P := fun d => d ≠ '=') hb (fun c hc => (blank_lead (u := u) hc).2.2)
    (fun _ => head_cons_append (t := cs) (r := r) hc)
  intro he
  exact h '=' he rfl

/-- A field comparison is read to its end. -/
theorem parseLeafFieldLhs_reads {b₁ i b₂ o b₃ v b₄ r : List Char} (hb₁ : Blanks b₁)
    (hi : IdentWord u i) (hb₂ : Blanks b₂) (ho : FieldOp b₂ o) (hb₃ : Blanks b₃)
    (hv : ValueWord u v g j) (hb₄ : Blanks b₄) (hr : RestOk u (g && b₄.isEmpty) r) :
    ∃ e, parseLeafFieldLhs u (b₁ ++ (i ++ (b₂ ++ (o ++ (b₃ ++ (v ++ (b₄ ++ r))))))) =
      .ok r e := by
  have h1 := ws_of_ok hb₁ (hi.unblank _)
    (parseIdentifier_reads hi (ho.unident (u := u) hb₂ (b₃ ++ (v ++ (b₄ ++ r))))) hb₂
    (ho.unblank _)
  obtain ⟨op, hop⟩ := parseCmpOp_reads (r := b₃ ++ (v ++ (b₄ ++ r))) ho (head_ne_eq hb₃ hv)
  have h2 := ws_of_ok (b := []) blanks_nil (ho.unblank _) hop hb₃ (hv.unblank _)
  obtain ⟨x, hx, -⟩ := parseValueEntry_reads hv (afterValue_blanks hb₄ hr)
  have h3 := ws_of_ok (b := []) blanks_nil (hv.unblank _) hx hb₄ hr.unblank
  rw [List.nil_append] at h2 h3
  unfold parseLeafFieldLhs
  rw [bind_of_ok h1, bind_of_ok h2, bind_of_ok h3]
  cases x with
  | json w =>
    cases op with
    | cmp c => exact ⟨_, rfl⟩
    | _ => exact ⟨_, rfl⟩
  | _ => exact ⟨_, rfl⟩

theorem unident_symbol (hb : Blanks b) (ho : o ∈ symbolWords) :
    Unident u (b ++ (o ++ r)) := FieldOp.unident (.inl ho) hb r

theorem unident_blanks (hb : Blanks b) (hne : b ≠ []) : Unident u (b ++ r) :=
  head_blanks hb (fun _ hc => (blank_lead hc).1) fun hnil => absurd hnil hne

/-- A parameter comparison is read to its end. -/
theorem parseLeafParamLhs_reads {b₁ b₂ i b₃ o b₄ v b₅ r : List Char} (hb₁ : Blanks b₁)
    (hb₂ : Blanks b₂) (hi : IdentWord u i) (hb₃ : Blanks b₃) (ho : o ∈ symbolWords)
    (hb₄ : Blanks b₄) (hv : ValueWord u v g true) (hb₅ : Blanks b₅)
    (hr : RestOk u (g && b₅.isEmpty) r) :
    ∃ e, parseLeafParamLhs u
      (b₁ ++ ('$' :: (b₂ ++ (i ++ (b₃ ++ (o ++ (b₄ ++ (v ++ (b₅ ++ r))))))))) = .ok r e := by
  have h1 := ws_of_ok hb₁ (unblank_cons (by decide))
    (char_cons '$' (b₂ ++ (i ++ (b₃ ++ (o ++ (b₄ ++ (v ++ (b₅ ++ r)))))))) hb₂ (hi.unblank _)
  have h2 := parseIdentifier_reads hi
    (unident_symbol (u := u) (r := b₄ ++ (v ++ (b₅ ++ r))) hb₃ ho)
  obtain ⟨op, hop⟩ := symbolOps_reads (r := b₄ ++ (v ++ (b₅ ++ r))) ho (head_ne_eq hb₄ hv)
    [value .inside (tagNoCase "INSIDE".toList), value .isIn (tagNoCase "IN".toList)]
  have h3 := ws_of_ok hb₃ ((FieldOp.unblank (b := []) (.inl ho)) _) hop hb₄ (hv.unblank _)
  obtain ⟨x, hx, hj⟩ := parseValueEntry_reads hv (afterValue_blanks hb₅ hr)
  have h4 := ws_of_ok (b := []) blanks_nil (hv.unblank _) hx hb₅ hr.unblank
  rw [List.nil_append] at h4
  unfold parseLeafParamLhs parseParamCmpOp
  rw [bind_of_ok h1, bind_of_ok h2, bind_of_ok h3]
  dsimp only
  rw [bind_of_ok h4]
  cases x with
  | json w => exact ⟨_, rfl⟩
  | _ => cases hj

/-- `INSIDE` or `IN`. -/
def InWord (k : List Char) : Prop := Keyword "INSIDE" k ∨ Keyword "IN" k

theorem InWord.unblank (h : InWord k) (r : List Char) : Unblank (k ++ r) := by
  rcases h with h | h
  · exact h.unblank (List.all_eq_true.mp (by decide)) (by decide) r
  · exact h.unblank (List.all_eq_true.mp (by decide)) (by decide) r

/-- After `IN` no `INSIDE` is read unless an `S` follows. -/
theorem inside_error (h : Keyword "IN" k)
    (hr : ∀ c ∈ r.head?, c.toLower ≠ 's') : tagNoCase "INSIDE".toList (k ++ r) = .error := by
  rcases tagBy_cases (fun c d => c.toLower == d.toLower) "INSIDE".toList (k ++ r) with he | ⟨t, he⟩
  · exact he
  · obtain ⟨w, hw, hk⟩ := tagNoCase_ok (k := "INSIDE") he
    cases hk with
    | cons h1 hk =>
      cases hk with
      | cons h2 hk =>
        cases hk with
        | cons h3 hk =>
          cases h with
          | cons h4 h =>
            cases h with
            | cons h5 h =>
              cases h
              simp only [List.cons_append, List.nil_append, List.cons.injEq] at hw
              obtain ⟨rfl, rfl, rfl⟩ := hw
              exact absurd (eq_of_beq h3).symm (hr _ rfl)

/-- What comes after `IN` or `INSIDE` is a blank or an opening bracket. -/
theorem lower_ne_s {c : Char} (hb : Blanks b) (hc : c.toLower ≠ 's') :
    ∀ d ∈ (b ++ (c :: r)).head?, d.toLower ≠ 's' := by
  refine head_blanks hb ?_ ?_
  · intro d hd
    simp only [isMultispace, Bool.or_eq_true, beq_iff_eq] at hd
    rcases hd with ((rfl | rfl) | rfl) | rfl <;> decide
  · intro _ d hd
    obtain rfl : c = d := by simpa using hd
    exact hc

theorem parseParamCmpOp_in {c : Char} (h : InWord k) (hb : Blanks b) (hc : c.toLower ≠ 's') :
    ∃ op, (∀ x, op ≠ .cmp x) ∧
      parseParamCmpOp (k ++ (b ++ (c :: r))) = .ok (b ++ (c :: r)) op := by
  unfold parseParamCmpOp
  rcases h with h | h
  · obtain ⟨d, ds, rfl, hd⟩ := h.alphaHead (List.all_eq_true.mp (by decide)) (by decide)
    refine ⟨.inside, by simp, ?_⟩
    rw [symbolOps_skip (c := d) rfl hd]
    exact alt_of_ok (value_of_ok (tagNoCase_reads h _))
  · have hno := inside_error (r := b ++ (c :: r)) h (lower_ne_s hb hc)
    obtain ⟨d, ds, rfl, hd⟩ := h.alphaHead (List.all_eq_true.mp (by decide)) (by decide)
    refine ⟨.isIn, by simp, ?_⟩
    rw [symbolOps_skip (c := d) rfl hd]
    exact altAll_of_ok [_] (by simpa using value_of_error hno) (value_of_ok (tagNoCase_reads h _))

/-- A membership test is read to its end. -/
theorem membership_reads {b₁ b₂ i b₃ k b₄ m b₅ r : List Char} (hb₁ : Blanks b₁) (hb₂ : Blanks b₂)
    (hi : IdentWord u i) (hb₃ : Blanks b₃) (hne : b₃ ≠ []) (hk : InWord k) (hb₄ : Blanks b₄)
    (hm : MembersWord m) (hb₅ : Blanks b₅) (hr : Unblank r) :
    ∃ e, parseLeafParamLhs u
      (b₁ ++ ('$' :: (b₂ ++ (i ++ (b₃ ++ (k ++ (b₄ ++ ('[' :: (m ++ (b₅ ++ r)))))))))) =
        .ok r e := by
  have h1 := ws_of_ok hb₁ (unblank_cons (by decide))
    (char_cons '$' (b₂ ++ (i ++ (b₃ ++ (k ++ (b₄ ++ ('[' :: (m ++ (b₅ ++ r))))))))) hb₂
    (hi.unblank _)
  have h2 := parseIdentifier_reads hi
    (unident_blanks (u := u) (r := k ++ (b₄ ++ ('[' :: (m ++ (b₅ ++ r))))) hb₃ hne)
  obtain ⟨op, hcmp, hop⟩ := parseParamCmpOp_in (r := m ++ (b₅ ++ r)) (c := '[') hk hb₄ (by decide)
  have h3 := ws_of_ok hb₃ (hk.unblank _) hop hb₄ (unblank_cons (by decide))
  obtain ⟨vs, hvs⟩ := parseStringArray_reads hm hb₅ hr
  have h4 : ws parseStringArray ('[' :: (m ++ (b₅ ++ r))) = .ok r vs := by
    have h := ws_of_unblank (unblank_cons (by decide)) hvs
    rwa [dropWhile_of_head hr] at h
  unfold parseLeafParamLhs
  rw [bind_of_ok h1, bind_of_ok h2, bind_of_ok h3]
  cases op with
  | cmp x => exact absurd rfl (hcmp x)
  | _ => exact ⟨_, bind_of_ok h4⟩

/-- What is read as a field comparison is one. -/
theorem parseLeafFieldLhs_ok {e : WhereExpr} (h : parseLeafFieldLhs u s = .ok rest e) :
    ∃ w g, s = w ++ rest ∧ Word u .term w g ∧ Unblank rest ∧ (g = true → Unident u rest) := by
  obtain ⟨s₁, _, h1, h⟩ := bind_ok h
  obtain ⟨s₂, op, h2, h⟩ := bind_ok h
  obtain ⟨s₃, x, h3, h⟩ := bind_ok h
  have hrest : s₃ = rest := by
    cases x with
    | json v => cases op <;> cases h <;> rfl
    | _ => cases h; rfl
  subst hrest
  obtain ⟨b₁, t₁, t₂, b₂, rfl, hb₁, -, hident, rfl, hb₂, hu₁⟩ := ws_ok h1
  obtain ⟨i, rfl, hi, hui⟩ := parseIdentifier_ok hident
  obtain ⟨b₂', t₃, t₄, b₃, rfl, hb₂', -, hcmp, rfl, hb₃, hu₂⟩ := ws_ok h2
  obtain rfl := hb₂'.eq_nil hu₁
  obtain ⟨o, rfl, ho⟩ := parseCmpOp_ok hcmp
  obtain ⟨b₃', t₅, t₆, b₄, rfl, hb₃', -, hval, rfl, hb₄, hu₃⟩ := ws_ok h3
  obtain rfl := hb₃'.eq_nil hu₂
  obtain ⟨v, g, j, rfl, hv, hg, -⟩ := parseValueEntry_ok hval
  have hop : o ∈ symbolWords ∨ b₂ ≠ [] ∧ (Keyword "CONTAINS" o ∨ Keyword "INSIDE" o) := by
    rcases ho with ho | ho
    · exact .inl ho
    · refine .inr ⟨?_, ho⟩
      rintro rfl
      obtain ⟨d, ds, rfl, hd⟩ : ∃ d ds, o = d :: ds ∧ d.isAlpha = true := by
        rcases ho with ho | ho
        · exact ho.alphaHead (List.all_eq_true.mp (by decide)) (by decide)
        · exact ho.alphaHead (List.all_eq_true.mp (by decide)) (by decide)
      have hc := hui d rfl
      rw [identChar_of_isAlpha hd] at hc
      cases hc
  refine ⟨_, _, ?_, .field hb₁ hi hb₂ hop hb₃ hv hb₄, hu₃, ?_⟩
  · simp
  · intro hgb
    rw [Bool.and_eq_true, List.isEmpty_iff] at hgb
    obtain ⟨hg', rfl⟩ := hgb
    exact hg hg'

/-- What is read as a parameter leaf is a comparison or a membership test. -/
theorem parseLeafParamLhs_ok {e : WhereExpr} (h : parseLeafParamLhs u s = .ok rest e) :
    ∃ w g, s = w ++ rest ∧ Word u .term w g ∧ Unblank rest ∧ (g = true → Unident u rest) := by
  obtain ⟨s₁, _, h1, h⟩ := bind_ok h
  obtain ⟨s₂, _, h2, h⟩ := bind_ok h
  obtain ⟨s₃, op, h3, h⟩ := bind_ok h
  obtain ⟨b₁, t₁, t₂, b₂, rfl, hb₁, -, hdollar, rfl, hb₂, hu₁⟩ := ws_ok h1
  obtain rfl := char_ok hdollar
  obtain ⟨i, rfl, hi, hui⟩ := parseIdentifier_ok h2
  obtain ⟨b₃, t₃, t₄, b₄, rfl, hb₃, -, hcmp, rfl, hb₄, hu₂⟩ := ws_ok h3
  rcases symbolOps_ok hcmp with ⟨o, ho, rfl, c, rfl⟩ | ⟨p, hp, hin⟩
  · obtain ⟨s₄, x, h4, hend⟩ := bind_ok h
    obtain ⟨b₄', t₅, t₆, b₅, rfl, hb₄', -, hval, rfl, hb₅, hu₃⟩ := ws_ok h4
    obtain rfl := hb₄'.eq_nil hu₂
    obtain ⟨v, g, j, rfl, hv, hg, hj⟩ := parseValueEntry_ok hval
    cases x with
    | json y =>
      cases hend
      obtain rfl : true = j := hj
      refine ⟨_, _, ?_, .param hb₁ hb₂ hi hb₃ ho hb₄ hv hb₅, hu₃, ?_⟩
      · simp
      · intro hgb
        rw [Bool.and_eq_true, List.isEmpty_iff] at hgb
        obtain ⟨hg', rfl⟩ := hgb
        exact hg hg'
    | _ => cases hend
  · have hk : ∃ k, t₃ = k ++ (b₄ ++ s₃) ∧ InWord k ∧ ∀ x, op ≠ .cmp x := by
      simp only [List.mem_cons, List.not_mem_nil, or_false] at hp
      rcases hp with rfl | rfl
      · obtain ⟨rfl, _, h5⟩ := value_ok hin
        obtain ⟨k, hs, hk⟩ := tagNoCase_ok h5
        exact ⟨k, hs, .inl hk, by simp⟩
      · obtain ⟨rfl, _, h5⟩ := value_ok hin
        obtain ⟨k, hs, hk⟩ := tagNoCase_ok h5
        exact ⟨k, hs, .inr hk, by simp⟩
    obtain ⟨k, rfl, hk, hop⟩ := hk
    have harr : ∃ s₄ vs, ws parseStringArray s₃ = .ok s₄ vs ∧ s₄ = rest := by
      cases op with
      | cmp x => exact absurd rfl (hop x)
      | _ =>
        obtain ⟨s₄, vs, h4, hend⟩ := bind_ok h
        cases hend
        exact ⟨_, vs, h4, rfl⟩
    obtain ⟨s₄, vs, h4, rfl⟩ := harr
    obtain ⟨b₅, t₅, t₆, b₆, rfl, hb₅, -, hlist, rfl, hb₆, hu₃⟩ := ws_ok h4
    obtain rfl := hb₅.eq_nil hu₂
    obtain ⟨b₇, m, b₈, rfl, hb₇, hm, hb₈, hu₄⟩ := parseStringArray_ok hlist
    have hb₇nil : b₇ = [] := hb₇.eq_nil (by simpa using hu₂)
    subst hb₇nil
    have hne : b₃ ≠ [] := by
      rintro rfl
      obtain ⟨d, ds, rfl, hd⟩ : ∃ d ds, k = d :: ds ∧ d.isAlpha = true := by
        rcases hk with hk | hk
        · exact hk.alphaHead (List.all_eq_true.mp (by decide)) (by decide)
        · exact hk.alphaHead (List.all_eq_true.mp (by decide)) (by decide)
      have hc := hui d rfl
      rw [identChar_of_isAlpha hd] at hc
      cases hc
    refine ⟨_, false, ?_, .membership hb₁ hb₂ hi hb₃ hne hk hb₄ hm (hb₈.append hb₆), hu₃, by simp⟩
    simp

end Leaves

/-! ## Terms -/

section Terms

variable {u : Unicode} {p : Parser WhereExpr}

/-- Leading blanks do not matter to a term. -/
theorem parseTerm_dropBlanks (s : List Char) :
    parseTerm u p (s.dropWhile isMultispace) = parseTerm u p s := by
  have h1 : parseInSubqueryLeaf u p (s.dropWhile isMultispace) = parseInSubqueryLeaf u p s :=
    bind_congr_left (ws_dropBlanks _ s)
  have h2 : delimited (ws (char '(')) p (ws (char ')')) (s.dropWhile isMultispace) =
      delimited (ws (char '(')) p (ws (char ')')) s := bind_congr_left (ws_dropBlanks _ s)
  have h3 : parseLeafParamLhs u (s.dropWhile isMultispace) = parseLeafParamLhs u s :=
    bind_congr_left (ws_dropBlanks _ s)
  have h4 : parseLeafFieldLhs u (s.dropWhile isMultispace) = parseLeafFieldLhs u s :=
    bind_congr_left (ws_dropBlanks _ s)
  simp only [parseTerm, altAll, parseLeafPredicate, alt, h1, h2, h3, h4, reject]

theorem parseAndExpression_dropBlanks (s : List Char) :
    parseAndExpression u p (s.dropWhile isMultispace) = parseAndExpression u p s := by
  refine bind_congr_left ?_
  rw [separatedList1, separatedList1, parseTerm_dropBlanks]

theorem parseOrAt_dropBlanks (n : Nat) (s : List Char) :
    parseOrAt u n (s.dropWhile isMultispace) = parseOrAt u n s := by
  cases n with
  | zero => rfl
  | succ n =>
    refine bind_congr_left ?_
    rw [separatedList1, separatedList1, parseAndExpression_dropBlanks]

theorem parseInSubqueryLeaf_error_ident {b s : List Char} (hb : Blanks b) (hs : Unblank s)
    (h : ∀ c ∈ s.head?, c.isAlpha = false ∧ c ≠ '_') :
    parseInSubqueryLeaf u p (b ++ s) = .error :=
  bind_of_error (ws_of_error hb hs (parseIdentifier_error h))

theorem paren_error {b s : List Char} (hb : Blanks b) (hs : Unblank s) (h : s.head? ≠ some '(') :
    delimited (ws (char '(')) p (ws (char ')')) (b ++ s) = .error :=
  bind_of_error (ws_of_error hb hs (char_error h))

theorem parseLeafParamLhs_error {b s : List Char} (hb : Blanks b) (hs : Unblank s)
    (h : s.head? ≠ some '$') : parseLeafParamLhs u (b ++ s) = .error :=
  bind_of_error (ws_of_error hb hs (char_error h))

/-- The subquery alternative gives up on a field comparison: no `IN (` stands there. -/
theorem parseInSubqueryLeaf_error_field {b₁ i b₂ o b₃ v r : List Char} {g j : Bool}
    (hb₁ : Blanks b₁) (hi : IdentWord u i) (hb₂ : Blanks b₂) (ho : FieldOp b₂ o) (hb₃ : Blanks b₃)
    (hv : ValueWord u v g j) :
    parseInSubqueryLeaf u p (b₁ ++ (i ++ (b₂ ++ (o ++ (b₃ ++ (v ++ r)))))) = .error := by
  have h1 := ws_of_ok hb₁ (hi.unblank _)
    (parseIdentifier_reads hi (ho.unident (u := u) hb₂ (b₃ ++ (v ++ r)))) hb₂ (ho.unblank _)
  have htwo : ∀ s : List Char, (∀ c ∈ s.head?, c.toLower ≠ 'i') →
      alt (tagNoCase "INSIDE".toList) (tagNoCase "IN".toList) s = .error := by
    intro s hs
    have hi1 : tagNoCase "INSIDE".toList s = .error := tagNoCase_error (c := 'I') (by decide) hs
    have hi2 : tagNoCase "IN".toList s = .error := tagNoCase_error (c := 'I') (by decide) hs
    exact (alt_of_error hi1).trans hi2
  unfold parseInSubqueryLeaf
  rw [bind_of_ok h1]
  rcases ho with ho | ⟨-, ho | ho⟩
  · refine bind_of_error (ws_of_error (b := []) blanks_nil (FieldOp.unblank (b := []) (.inl ho) _) ?_)
    obtain ⟨c, cs, rfl, hc, -⟩ := symbolWords_lead ho
    refine htwo _ (head_cons_append ?_)
    simp only [List.mem_cons, List.not_mem_nil, or_false] at hc
    rcases hc with rfl | rfl | rfl | rfl <;> decide
  · refine bind_of_error (ws_of_error (b := []) blanks_nil
      (ho.unblank (List.all_eq_true.mp (by decide)) (by decide) _) ?_)
    obtain ⟨d, ds, rfl, hd⟩ := ho.head (c := 'C') (by decide)
    refine htwo _ (head_cons_append ?_)
    rw [hd]
    decide
  · have h2 := ws_of_ok (b := []) blanks_nil (ho.unblank (List.all_eq_true.mp (by decide)) (by decide) _)
      (alt_of_ok (q := tagNoCase "IN".toList) (tagNoCase_reads ho (b₃ ++ (v ++ r)))) hb₃
      (hv.unblank r)
    rw [List.nil_append] at h2
    rw [bind_of_ok h2]
    refine bind_of_error (ws_of_error (b := []) blanks_nil (hv.unblank r) (char_error ?_))
    obtain ⟨c, cs, rfl, -, hc, -⟩ := hv.lead
    simpa using hc

/-- The tail of a subquery after its table. -/
def subqueryTail (p : Parser WhereExpr) (left proj table : String) : Parser WhereExpr := do
  let condition ← opt (ws (parseWhereLogic p))
  let _ ← ws (char ')')
  pure (.inSubquery left proj table condition)

/-- The head of a subquery is read up to what follows its table. -/
theorem subqueryHead_reads {s b r : List Char} (h : SubqueryHead u s) (hb : Blanks b)
    (hr : Unblank r) (hi : Unident u (b ++ r)) :
    ∃ left proj table, parseInSubqueryLeaf u p (s ++ (b ++ r)) =
      subqueryTail p left proj table r := by
  cases h with
  | @mk b₁ i b₂ k b₃ b₄ ks b₅ kv b₆ x b₇ kf b₈ t hb₁ hi₁ hb₂ hne₂ hk hb₃ hb₄ hks hb₅ hkv hb₆ hx hb₇
      hne₇ hkf hb₈ ht =>
    have hk' : InWord k := hk
    have hS : ∀ c ∈ "SELECT".toList, c.isAlpha = true := List.all_eq_true.mp (by decide)
    have hV : ∀ c ∈ "VALUE".toList, c.isAlpha = true := List.all_eq_true.mp (by decide)
    have hF : ∀ c ∈ "FROM".toList, c.isAlpha = true := List.all_eq_true.mp (by decide)
    have h9 := ws_of_ok (b := []) blanks_nil (ht.unblank _) (parseIdentifier_reads ht hi) hb hr
    have h8 := ws_of_ok (b := []) blanks_nil (hkf.unblank hF (by decide) _)
      (tagNoCase_reads hkf (b₈ ++ (t ++ (b ++ r)))) hb₈ (ht.unblank _)
    have h7 := ws_of_ok (b := []) blanks_nil (hx.unblank _) (parseIdentifier_reads hx
      (unident_blanks (u := u) (r := kf ++ (b₈ ++ (t ++ (b ++ r)))) hb₇ hne₇)) hb₇
      (hkf.unblank hF (by decide) _)
    have h6 := ws_of_ok (b := []) blanks_nil (hkv.unblank hV (by decide) _)
      (tagNoCase_reads hkv (b₆ ++ (x ++ (b₇ ++ (kf ++ (b₈ ++ (t ++ (b ++ r)))))))) hb₆
      (hx.unblank _)
    have h5 := ws_of_ok (b := []) blanks_nil (hks.unblank hS (by decide) _)
      (tagNoCase_reads hks (b₅ ++ (kv ++ (b₆ ++ (x ++ (b₇ ++ (kf ++ (b₈ ++ (t ++ (b ++ r))))))))))
      hb₅ (hkv.unblank hV (by decide) _)
    have h4 := ws_of_ok (b := []) blanks_nil (unblank_cons (by decide)) (char_cons '(' (b₄ ++ (ks ++
      (b₅ ++ (kv ++ (b₆ ++ (x ++ (b₇ ++ (kf ++ (b₈ ++ (t ++ (b ++ r))))))))))))
      hb₄ (hks.unblank hS (by decide) _)
    have hin : ∀ t : List Char, alt (tagNoCase "INSIDE".toList) (tagNoCase "IN".toList)
        (k ++ (b₃ ++ ('(' :: t))) = .ok (b₃ ++ ('(' :: t)) () := by
      intro t
      rcases hk with hk | hk
      · exact alt_of_ok (tagNoCase_reads hk _)
      · rw [alt_of_error (inside_error hk (lower_ne_s hb₃ (by decide)))]
        exact tagNoCase_reads hk _
    have h3 := ws_of_ok (b := []) blanks_nil (hk'.unblank _) (hin (b₄ ++ (ks ++
      (b₅ ++ (kv ++ (b₆ ++ (x ++ (b₇ ++ (kf ++ (b₈ ++ (t ++ (b ++ r))))))))))))
      hb₃ (unblank_cons (by decide))
    have h2 := ws_of_ok hb₁ (hi₁.unblank _) (parseIdentifier_reads hi₁
      (unident_blanks (u := u) (r := k ++ (b₃ ++ ('(' :: (b₄ ++ (ks ++
      (b₅ ++ (kv ++ (b₆ ++ (x ++ (b₇ ++ (kf ++ (b₈ ++ (t ++ (b ++ r)))))))))))))) hb₂ hne₂)) hb₂
      (hk'.unblank _)
    simp only [List.nil_append] at h3 h4 h5 h6 h7 h8 h9
    refine ⟨String.ofList i, String.ofList x, String.ofList t, ?_⟩
    simp only [List.append_assoc, List.cons_append]
    unfold parseInSubqueryLeaf
    rw [bind_of_ok h2, bind_of_ok h3, bind_of_ok h4, bind_of_ok h5, bind_of_ok h6, bind_of_ok h7,
      bind_of_ok h8, bind_of_ok h9]
    rfl

end Terms

/-! ## Reading a word -/

section Reads

variable {u : Unicode}

/-- A word of a level is read to its end, whatever may follow it. A list of terms is given by
    its first item and the run of the loop over the others. -/
def Reads (u : Unicode) (p : Parser WhereExpr) : Level → List Char → Bool → Prop
  | .term, w, g => ∀ r, RestOk u g r → ∃ e, parseTerm u p (w ++ r) = .ok r e
  | .conj, w, g => ∀ r, RestOk u g r → (∀ c ∈ r.head?, c.toLower ≠ 'a') →
      ∃ s a l, parseTerm u p (w ++ r) = .ok s a ∧ s.length ≤ (w ++ r).length ∧
        SepRun (ws (tagNoCase "AND".toList)) (parseTerm u p) s r l
  | .disj, w, g => ∀ r, RestOk u g r → (∀ c ∈ r.head?, c.toLower ≠ 'a') →
      (∀ c ∈ r.head?, c.toLower ≠ 'o') →
      ∃ s a l, parseAndExpression u p (w ++ r) = .ok s a ∧ s.length ≤ (w ++ r).length ∧
        SepRun (ws (tagNoCase "OR".toList)) (parseAndExpression u p) s r l

theorem restOk_close (g : Bool) (r : List Char) : RestOk u g (')' :: r) := by
  refine ⟨unblank_cons (by decide), ?_, ?_⟩
  · intro c hc
    obtain rfl : ')' = c := by simpa using hc
    decide
  · intro _ c hc
    obtain rfl : ')' = c := by simpa using hc
    rw [identChar_ascii (by decide)]
    decide

theorem lower_ne_close {x : Char} (hx : x ≠ ')') (r : List Char) :
    ∀ c ∈ (')' :: r).head?, c.toLower ≠ x := by
  intro c hc
  obtain rfl : ')' = c := by simpa using hc
  exact fun h => hx h.symm

variable {r w b s b' : List Char}

/-- A separator is an error where its first letter does not stand. -/
theorem sep_error {k : String} {c : Char} (hr : Unblank r)
    (hk : k.toList.head? = some c) (h : ∀ d ∈ r.head?, d.toLower ≠ c.toLower) :
    ws (tagNoCase k.toList) r = .error :=
  ws_of_error (b := []) blanks_nil hr (tagNoCase_error hk h)

/-- A separator is read with the blanks behind it. -/
theorem sep_reads {k : String} (hw : Keyword k w)
    (hk : ∀ c ∈ k.toList, c.isAlpha = true) (hne : k.toList ≠ []) (r : List Char) :
    ws (tagNoCase k.toList) (w ++ r) = .ok (r.dropWhile isMultispace) () :=
  ws_of_unblank (hw.unblank hk hne r) (tagNoCase_reads hw r)

/-- A word that does not end in a bare identifier may be followed by a keyword. -/
theorem restOk_keyword {k : String} (hw : Keyword k w)
    (hk : ∀ c ∈ k.toList, c.isAlpha = true) (hne : k.toList ≠ []) (r : List Char) :
    RestOk u false (w ++ r) := by
  refine ⟨hw.unblank hk hne r, ?_, by simp⟩
  obtain ⟨d, ds, rfl, hd⟩ := hw.alphaHead hk hne
  exact head_cons_append (alpha_lead hd).2.2.2.1

theorem Keyword.length_pos {k : String} (hw : Keyword k w)
    (hk : ∀ c ∈ k.toList, c.isAlpha = true) (hne : k.toList ≠ []) : 0 < w.length := by
  obtain ⟨d, ds, rfl, -⟩ := hw.alphaHead hk hne
  simp

variable {p : Parser WhereExpr} {g : Bool}

theorem Reads.conj (h : Reads u p .conj w g)
    (hr : RestOk u g r) (ha : ∀ c ∈ r.head?, c.toLower ≠ 'a') :
    ∃ e, parseAndExpression u p (w ++ r) = .ok r e := by
  obtain ⟨s, a, l, h1, -, h2⟩ := h r hr ha
  exact ⟨_, bind_of_ok (separatedList1_of_run h1 h2)⟩

/-- A disjunction between parentheses, at one more level of depth. -/
theorem Reads.disj {n : Nat} (h : Reads u (parseOrAt u n) .disj w g)
    (hr : RestOk u g r) (ha : ∀ c ∈ r.head?, c.toLower ≠ 'a')
    (ho : ∀ c ∈ r.head?, c.toLower ≠ 'o') : ∃ e, parseOrAt u (n + 1) (w ++ r) = .ok r e := by
  obtain ⟨s, a, l, h1, -, h2⟩ := h r hr ha ho
  exact ⟨_, bind_of_ok (separatedList1_of_run h1 h2)⟩

theorem reads_field {b₁ i b₂ o b₃ v b₄ : List Char} {g j : Bool}
    (hb₁ : Blanks b₁) (hi : IdentWord u i) (hb₂ : Blanks b₂) (ho : FieldOp b₂ o) (hb₃ : Blanks b₃)
    (hv : ValueWord u v g j) (hb₄ : Blanks b₄) :
    Reads u p .term (b₁ ++ (i ++ (b₂ ++ (o ++ (b₃ ++ (v ++ b₄)))))) (g && b₄.isEmpty) := by
  intro r hr
  simp only [List.append_assoc]
  obtain ⟨e, he⟩ := parseLeafFieldLhs_reads hb₁ hi hb₂ ho hb₃ hv hb₄ hr
  refine ⟨e, altAll_of_ok [_, _] ?_ ?_⟩
  · obtain ⟨c, cs, rfl, hl⟩ := hi.lead
    simp only [List.mem_cons, List.not_mem_nil, or_false, forall_eq_or_imp, forall_eq]
    refine ⟨parseInSubqueryLeaf_error_field hb₁ hi hb₂ ho hb₃ hv, ?_⟩
    exact paren_error hb₁ (hi.unblank _) (by simpa using hl.2.2.2.2.1)
  · obtain ⟨c, cs, rfl, hl⟩ := hi.lead
    rw [parseLeafPredicate, alt_of_error (parseLeafParamLhs_error hb₁ (hi.unblank _)
      (by simpa using hl.2.2.1))]
    exact he

/-- A leaf that leads with `$` is left to the parameter parser. -/
theorem reads_dollar {e : WhereExpr} (hb : Blanks b)
    (h : parseLeafParamLhs u (b ++ ('$' :: s)) = .ok r e) :
    parseTerm u p (b ++ ('$' :: s)) = .ok r e := by
  have hd : Unblank ('$' :: s) := unblank_cons (by decide)
  refine altAll_of_ok [_, _] ?_ (alt_of_ok h)
  simp only [List.mem_cons, List.not_mem_nil, or_false, forall_eq_or_imp, forall_eq]
  refine ⟨parseInSubqueryLeaf_error_ident hb hd ?_, paren_error hb hd (by simp)⟩
  intro c hc
  obtain rfl : '$' = c := by simpa using hc
  decide

theorem reads_subquery (hs : SubqueryHead u s) (hb : Blanks b) (hb' : Blanks b') :
    Reads u p .term (s ++ (b ++ (')' :: b'))) false := by
  intro r hr
  have hclose : RestOk u true (')' :: (b' ++ r)) := restOk_close true _
  obtain ⟨left, proj, table, h⟩ := subqueryHead_reads (p := p) hs hb hclose.unblank
    (head_blanks hb (fun _ hc => (blank_lead hc).1) fun _ => hclose.ident rfl)
  have hwhere : ws (parseWhereLogic p) (')' :: (b' ++ r)) = .error :=
    ws_of_error (b := []) blanks_nil hclose.unblank
      (preceded_of_error (tagNoCase_error (c := 'W') (by decide) (lower_ne_close (by decide) _)))
  have hend := ws_of_ok (b := []) blanks_nil hclose.unblank (char_cons ')' (b' ++ r)) hb' hr.unblank
  rw [List.nil_append] at hend
  refine ⟨.inSubquery left proj table none, ?_⟩
  simp only [List.append_assoc, List.cons_append]
  refine alt_of_ok (h.trans ?_)
  unfold subqueryTail
  rw [bind_of_ok (opt_of_error hwhere), bind_of_ok hend]
  rfl

theorem reads_subqueryWhere {n : Nat} {s b k w b' : List Char}
    (hs : SubqueryHead u s) (hb : Blanks b) (hne : b ≠ []) (hk : Keyword "WHERE" k)
    (hw : Reads u (parseOrAt u n) .disj w g) (hb' : Blanks b') :
    Reads u (parseOrAt u (n + 1)) .term (s ++ (b ++ (k ++ (w ++ (')' :: b'))))) false := by
  intro r hr
  have hW : ∀ c ∈ "WHERE".toList, c.isAlpha = true := List.all_eq_true.mp (by decide)
  obtain ⟨left, proj, table, h⟩ := subqueryHead_reads (p := parseOrAt u (n + 1)) hs hb
    (hk.unblank hW (by decide) (w ++ (')' :: (b' ++ r)))) (unident_blanks hb hne)
  obtain ⟨e, he⟩ := hw.disj (restOk_close (u := u) g (b' ++ r)) (lower_ne_close (by decide) _)
    (lower_ne_close (by decide) _)
  have hlogic : parseWhereLogic (parseOrAt u (n + 1)) (k ++ (w ++ (')' :: (b' ++ r)))) =
      .ok (')' :: (b' ++ r)) e := by
    unfold parseWhereLogic
    rw [preceded_of_ok (tagNoCase_reads hk _)]
    exact cut_of_ok he
  have hwhere : ws (parseWhereLogic (parseOrAt u (n + 1))) (k ++ (w ++ (')' :: (b' ++ r)))) =
      .ok (')' :: (b' ++ r)) e := by
    have hopen := ws_of_unblank (hk.unblank hW (by decide) _) hlogic
    rwa [dropWhile_of_head (unblank_cons (by decide))] at hopen
  have hend := ws_of_ok (b := []) blanks_nil (unblank_cons (by decide)) (char_cons ')' (b' ++ r))
    hb' hr.unblank
  rw [List.nil_append] at hend
  refine ⟨.inSubquery left proj table (some e), ?_⟩
  simp only [List.append_assoc, List.cons_append]
  refine alt_of_ok (h.trans ?_)
  unfold subqueryTail
  rw [bind_of_ok (opt_of_ok hwhere), bind_of_ok hend]
  rfl

theorem reads_paren {n : Nat} (hb : Blanks b)
    (hw : Reads u (parseOrAt u n) .disj w g) (hb' : Blanks b') :
    Reads u (parseOrAt u (n + 1)) .term (b ++ ('(' :: (w ++ (')' :: b')))) false := by
  intro r hr
  obtain ⟨e, he⟩ := hw.disj (restOk_close (u := u) g (b' ++ r)) (lower_ne_close (by decide) _)
    (lower_ne_close (by decide) _)
  have hopen : ws (char '(') (b ++ ('(' :: (w ++ (')' :: (b' ++ r))))) =
      .ok ((w ++ (')' :: (b' ++ r))).dropWhile isMultispace) () := by
    rw [ws_blanks hb]
    exact ws_of_unblank (unblank_cons (by decide)) (char_cons '(' _)
  have hend := ws_of_ok (b := []) blanks_nil (unblank_cons (by decide)) (char_cons ')' (b' ++ r))
    hb' hr.unblank
  rw [List.nil_append] at hend
  refine ⟨e, ?_⟩
  simp only [List.append_assoc, List.cons_append]
  refine altAll_of_ok [_] ?_ (delimited_of_ok hopen ((parseOrAt_dropBlanks _ _).trans he) hend)
  simp only [List.mem_cons, List.not_mem_nil, or_false, forall_eq]
  refine parseInSubqueryLeaf_error_ident hb (unblank_cons (by decide)) ?_
  intro c hc
  obtain rfl : '(' = c := by simpa using hc
  decide

/-- The parser reads every word to its end. -/
theorem word_reads {l : Level} (h : Word u l w g) :
    ∀ n, w.length < n → Reads u (parseOrAt u n) l w g := by
  induction h with
  | field hb₁ hi hb₂ ho hb₃ hv hb₄ =>
    intro n _
    exact reads_field hb₁ hi hb₂ ho hb₃ hv hb₄
  | param hb₁ hb₂ hi hb₃ ho hb₄ hv hb₅ =>
    intro n _ r hr
    simp only [List.append_assoc, List.cons_append]
    obtain ⟨e, he⟩ := parseLeafParamLhs_reads hb₁ hb₂ hi hb₃ ho hb₄ hv hb₅ hr
    exact ⟨e, reads_dollar hb₁ he⟩
  | membership hb₁ hb₂ hi hb₃ hne hk hb₄ hm hb₅ =>
    intro n _ r hr
    simp only [List.append_assoc, List.cons_append]
    obtain ⟨e, he⟩ := membership_reads hb₁ hb₂ hi hb₃ hne hk hb₄ hm hb₅ hr.unblank
    exact ⟨e, reads_dollar hb₁ he⟩
  | paren hb₁ _ hb₂ ih =>
    intro n hn
    obtain ⟨n, rfl⟩ : ∃ m, n = m + 1 := ⟨n - 1, by omega⟩
    simp only [List.length_append, List.length_cons] at hn
    exact reads_paren hb₁ (ih n (by omega)) hb₂
  | subquery hs hb hb' =>
    intro n _
    exact reads_subquery hs hb hb'
  | subqueryWhere hs hb hne hk _ hb' ih =>
    intro n hn
    obtain ⟨n, rfl⟩ : ∃ m, n = m + 1 := ⟨n - 1, by omega⟩
    simp only [List.length_append, List.length_cons] at hn
    exact reads_subqueryWhere hs hb hne hk (ih n (by omega)) hb'
  | oneTerm _ ih =>
    intro n hn r hr ha
    obtain ⟨e, he⟩ := ih n hn r hr
    refine ⟨r, e, [], he, by simp, .stop (sep_error (c := 'A') hr.unblank (by decide) ha)⟩
  | @and w k w' g _ hk _ ih ih' =>
    intro n hn r hr ha
    have hA : ∀ c ∈ "AND".toList, c.isAlpha = true := List.all_eq_true.mp (by decide)
    have hpos := hk.length_pos hA (by decide)
    simp only [List.length_append] at hn
    obtain ⟨e, he⟩ := ih n (by omega) (k ++ (w' ++ r)) (restOk_keyword hk hA (by decide) _)
    obtain ⟨s, a, l, h1, hlen, h2⟩ := ih' n (by omega) r hr ha
    refine ⟨k ++ (w' ++ r), e, a :: l, by simpa using he, by simp, ?_⟩
    refine .next (sep_reads hk hA (by decide) _) ?_ ((parseTerm_dropBlanks _).trans h1) ?_ h2
    · have := length_dropBlanks (w' ++ r)
      simp only [List.length_append] at this ⊢
      omega
    · simp only [List.length_append] at hlen ⊢
      omega
  | oneConj _ ih =>
    intro n hn r hr ha ho
    obtain ⟨e, he⟩ := (ih n hn).conj hr ha
    refine ⟨r, e, [], he, by simp, .stop (sep_error (c := 'O') hr.unblank (by decide) ho)⟩
  | @or w k w' g _ hk _ ih ih' =>
    intro n hn r hr ha ho
    have hO : ∀ c ∈ "OR".toList, c.isAlpha = true := List.all_eq_true.mp (by decide)
    have hpos := hk.length_pos hO (by decide)
    simp only [List.length_append] at hn
    obtain ⟨e, he⟩ := (ih n (by omega)).conj (r := k ++ (w' ++ r))
      (restOk_keyword hk hO (by decide) _) (by
        obtain ⟨d, ds, rfl, hd⟩ := hk.head (c := 'O') (by decide)
        refine head_cons_append ?_
        rw [hd]
        decide)
    obtain ⟨s, a, l, h1, hlen, h2⟩ := ih' n (by omega) r hr ha ho
    refine ⟨k ++ (w' ++ r), e, a :: l, by simpa using he, by simp, ?_⟩
    refine .next (sep_reads hk hO (by decide) _) ?_ ((parseAndExpression_dropBlanks _).trans h1) ?_ h2
    · have := length_dropBlanks (w' ++ r)
      simp only [List.length_append] at this ⊢
      omega
    · simp only [List.length_append] at hlen ⊢
      omega

end Reads

/-! ## What is read is a word -/

section Sound

variable {u : Unicode}

/-- Blanks in front of a word are part of it. -/
theorem Word.blanks {l : Level} {w b : List Char} {g : Bool} (h : Word u l w g) (hb : Blanks b) :
    Word u l (b ++ w) g := by
  induction h with
  | field hb₁ hi hb₂ ho hb₃ hv hb₄ =>
    rw [← List.append_assoc]
    exact .field (hb.append hb₁) hi hb₂ ho hb₃ hv hb₄
  | param hb₁ hb₂ hi hb₃ ho hb₄ hv hb₅ =>
    rw [← List.append_assoc]
    exact .param (hb.append hb₁) hb₂ hi hb₃ ho hb₄ hv hb₅
  | membership hb₁ hb₂ hi hb₃ hne hk hb₄ hm hb₅ =>
    rw [← List.append_assoc]
    exact .membership (hb.append hb₁) hb₂ hi hb₃ hne hk hb₄ hm hb₅
  | paren hb₁ hw hb₂ _ =>
    rw [← List.append_assoc]
    exact .paren (hb.append hb₁) hw hb₂
  | subquery hs hb₁ hb₂ =>
    rw [← List.append_assoc]
    refine .subquery ?_ hb₁ hb₂
    cases hs with
    | mk h1 h2 h3 h4 h5 h6 h7 h8 h9 h10 h11 h12 h13 h14 h15 h16 h17 =>
      rw [← List.append_assoc]
      exact .mk (hb.append h1) h2 h3 h4 h5 h6 h7 h8 h9 h10 h11 h12 h13 h14 h15 h16 h17
  | subqueryWhere hs hb₁ hne hk hw hb₂ _ =>
    rw [← List.append_assoc]
    refine .subqueryWhere ?_ hb₁ hne hk hw hb₂
    cases hs with
    | mk h1 h2 h3 h4 h5 h6 h7 h8 h9 h10 h11 h12 h13 h14 h15 h16 h17 =>
      rw [← List.append_assoc]
      exact .mk (hb.append h1) h2 h3 h4 h5 h6 h7 h8 h9 h10 h11 h12 h13 h14 h15 h16 h17
  | oneTerm _ ih => exact .oneTerm ih
  | and _ hk hw' ih _ =>
    rw [← List.append_assoc]
    exact .and ih hk hw'
  | oneConj _ ih => exact .oneConj ih
  | or _ hk hw' ih _ =>
    rw [← List.append_assoc]
    exact .or ih hk hw'

/-- What a parser reads is a word of a level, and it stops where the word must. -/
def Sound (u : Unicode) (p : Parser WhereExpr) (l : Level) : Prop :=
  ∀ s rest e, p s = .ok rest e →
    ∃ w g, s = w ++ rest ∧ Word u l w g ∧ Unblank rest ∧ (g = true → Unident u rest)

variable {p : Parser WhereExpr}

theorem sound_paren (hp : Sound u p .disj) :
    Sound u (delimited (ws (char '(')) p (ws (char ')'))) .term := by
  intro s rest e h
  obtain ⟨s₁, s₂, _, _, h1, h2, h3⟩ := delimited_ok h
  obtain ⟨b₁, t₁, t₂, b₂, rfl, hb₁, -, hopen, rfl, hb₂, -⟩ := ws_ok h1
  obtain rfl := char_ok hopen
  obtain ⟨w, g, rfl, hw, hu, -⟩ := hp _ _ _ h2
  obtain ⟨b₃, t₃, t₄, b₄, rfl, hb₃, -, hclose, rfl, hb₄, hr⟩ := ws_ok h3
  obtain rfl := char_ok hclose
  obtain rfl := hb₃.eq_nil hu
  refine ⟨_, false, ?_, .paren hb₁ (hw.blanks hb₂) hb₄, hr, by simp⟩
  simp

/-- A keyword directly behind an identifier is not one. -/
theorem blanks_ne_nil {b k r : List Char} {c : Char} {cs : List Char} (hk : k = c :: cs)
    (hc : c.isAlpha = true) (h : Unident u (b ++ (k ++ r))) : b ≠ [] := by
  rintro rfl
  subst hk
  have hcc := h c rfl
  rw [identChar_of_isAlpha hc] at hcc
  cases hcc

theorem Keyword.blanks_ne_nil {name : String} {b k r : List Char} (hk : Keyword name k)
    (hn : ∀ c ∈ name.toList, c.isAlpha = true) (hne : name.toList ≠ [])
    (h : Unident u (b ++ (k ++ r))) : b ≠ [] := by
  obtain ⟨d, ds, he, hd⟩ := hk.alphaHead hn hne
  exact Sp00ky.Ssp.blanks_ne_nil he hd h

theorem subqueryHead_ok {s rest : List Char} {e : WhereExpr}
    (h : parseInSubqueryLeaf u p s = .ok rest e) :
    ∃ w b t left proj table, s = w ++ (b ++ t) ∧ SubqueryHead u w ∧ Blanks b ∧ Unblank t ∧
      Unident u (b ++ t) ∧ subqueryTail p left proj table t = .ok rest e := by
  obtain ⟨s₁, left, h1, h⟩ := bind_ok h
  obtain ⟨s₂, _, h2, h⟩ := bind_ok h
  obtain ⟨s₃, _, h3, h⟩ := bind_ok h
  obtain ⟨s₄, _, h4, h⟩ := bind_ok h
  obtain ⟨s₅, _, h5, h⟩ := bind_ok h
  obtain ⟨s₆, proj, h6, h⟩ := bind_ok h
  obtain ⟨s₇, _, h7, h⟩ := bind_ok h
  obtain ⟨s₈, table, h8, htail⟩ := bind_ok h
  obtain ⟨b₁, t₁, r₁, b₂, rfl, hb₁, -, k1, rfl, hb₂, u1⟩ := ws_ok h1
  obtain ⟨i, rfl, hi, hui⟩ := parseIdentifier_ok k1
  obtain ⟨c₂, t₂, r₂, b₃, rfl, hc₂, -, k2, rfl, hb₃, u2⟩ := ws_ok h2
  obtain rfl := hc₂.eq_nil u1
  obtain ⟨k, rfl, hk⟩ : ∃ k, t₂ = k ++ (b₃ ++ s₂) ∧ InWord k := by
    rcases alt_ok k2 with k2 | ⟨-, k2⟩
    · obtain ⟨k, hs, hk⟩ := tagNoCase_ok k2
      exact ⟨k, hs, .inl hk⟩
    · obtain ⟨k, hs, hk⟩ := tagNoCase_ok k2
      exact ⟨k, hs, .inr hk⟩
  obtain ⟨c₃, t₃, r₃, b₄, rfl, hc₃, -, k3, rfl, hb₄, u3⟩ := ws_ok h3
  obtain rfl := hc₃.eq_nil u2
  obtain rfl := char_ok k3
  obtain ⟨c₄, t₄, r₄, b₅, rfl, hc₄, -, k4, rfl, hb₅, u4⟩ := ws_ok h4
  obtain rfl := hc₄.eq_nil u3
  obtain ⟨ks, rfl, hks⟩ := tagNoCase_ok k4
  obtain ⟨c₅, t₅, r₅, b₆, rfl, hc₅, -, k5, rfl, hb₆, u5⟩ := ws_ok h5
  obtain rfl := hc₅.eq_nil u4
  obtain ⟨kv, rfl, hkv⟩ := tagNoCase_ok k5
  obtain ⟨c₆, t₆, r₆, b₇, rfl, hc₆, -, k6, rfl, hb₇, u6⟩ := ws_ok h6
  obtain rfl := hc₆.eq_nil u5
  obtain ⟨x, rfl, hx, hux⟩ := parseIdentifier_ok k6
  obtain ⟨c₇, t₇, r₇, b₈, rfl, hc₇, -, k7, rfl, hb₈, u7⟩ := ws_ok h7
  obtain rfl := hc₇.eq_nil u6
  obtain ⟨kf, rfl, hkf⟩ := tagNoCase_ok k7
  obtain ⟨c₈, t₈, r₈, b₉, rfl, hc₈, -, k8, rfl, hb₉, u8⟩ := ws_ok h8
  obtain rfl := hc₈.eq_nil u7
  obtain ⟨t, rfl, ht, hut⟩ := parseIdentifier_ok k8
  have hne₂ : b₂ ≠ [] := by
    rcases hk with hk | hk
    · exact hk.blanks_ne_nil (List.all_eq_true.mp (by decide)) (by decide) hui
    · exact hk.blanks_ne_nil (List.all_eq_true.mp (by decide)) (by decide) hui
  have hne₇ : b₇ ≠ [] := hkf.blanks_ne_nil (List.all_eq_true.mp (by decide)) (by decide) hux
  refine ⟨_, b₉, s₈, left, proj, table, ?_,
    .mk hb₁ hi hb₂ hne₂ hk hb₃ hb₄ hks hb₅ hkv hb₆ hx hb₇ hne₇ hkf hb₈ ht, hb₉, u8, hut, htail⟩
  simp

theorem sound_subquery (hp : Sound u p .disj) :
    Sound u (parseInSubqueryLeaf u p) .term := by
  intro s rest e h
  obtain ⟨w, b, t, left, proj, table, rfl, hw, hb, hu, hi, htail⟩ := subqueryHead_ok h
  obtain ⟨s₁, condition, h1, hrest⟩ := bind_ok htail
  obtain ⟨s₂, _, h2, hpure⟩ := bind_ok hrest
  cases hpure
  obtain ⟨b₁, t₁, t₂, b₂, rfl, hb₁, -, hclose, rfl, hb₂, hr⟩ := ws_ok h2
  obtain rfl := char_ok hclose
  rcases opt_ok h1 with ⟨c, -, h1⟩ | ⟨-, rfl, -⟩
  · obtain ⟨b₃, t₃, t₄, b₄, rfl, hb₃, -, hlogic, he, hb₄, hu₁⟩ := ws_ok h1
    obtain rfl := hb₃.eq_nil hu
    obtain rfl := hb₁.eq_nil hu₁
    obtain ⟨s₃, _, htag, hcond⟩ := preceded_ok hlogic
    obtain ⟨k, rfl, hk⟩ := tagNoCase_ok htag
    obtain ⟨w', g, rfl, hw', hu₂, -⟩ := hp _ _ _ (cut_ok hcond)
    have hb₄nil : b₄ = [] := by
      subst he
      exact hb₄.eq_nil hu₂
    subst hb₄nil he
    have hne := hk.blanks_ne_nil (List.all_eq_true.mp (by decide)) (by decide) hi
    refine ⟨_, false, ?_, .subqueryWhere hw hb hne hk hw' hb₂, hr, by simp⟩
    simp
  · obtain rfl := hb₁.eq_nil hu
    refine ⟨_, false, ?_, .subquery hw hb hb₂, hr, by simp⟩
    simp

theorem sound_term (hp : Sound u p .disj) :
    Sound u (parseTerm u p) .term := by
  intro s rest e h
  obtain ⟨q, hq, h⟩ := altAll_ok h
  simp only [List.mem_cons, List.not_mem_nil, or_false] at hq
  rcases hq with rfl | rfl | rfl
  · exact sound_subquery hp _ _ _ h
  · exact sound_paren hp _ _ _ h
  · rcases alt_ok h with h | ⟨-, h⟩
    · exact parseLeafParamLhs_ok h
    · exact parseLeafFieldLhs_ok h

/-- A keyword is read behind a word only if the word does not end in a bare identifier. -/
theorem closed_of_keyword {name : String} {k r : List Char} {g : Bool} (hk : Keyword name k)
    (hn : ∀ c ∈ name.toList, c.isAlpha = true) (hne : name.toList ≠ [])
    (hg : g = true → Unident u (k ++ r)) : g = false := by
  cases g with
  | false => rfl
  | true => exact absurd rfl (hk.blanks_ne_nil (b := []) hn hne (hg rfl))

/-- A list of words of a level between keywords. -/
theorem sound_list {name : String} {q : Parser WhereExpr} {l l' : Level} (hq : Sound u q l)
    (hn : name.toList.all Char.isAlpha = true) (hne : name.toList ≠ [])
    (hone : ∀ {w g}, Word u l w g → Word u l' w g)
    (hcons : ∀ {w k w' g'}, Word u l w false → Keyword name k → Word u l' w' g' →
      Word u l' (w ++ (k ++ w')) g')
    {op : List WhereExpr → WhereExpr} :
    Sound u (separatedList1 (ws (tagNoCase name.toList)) q >>= fun terms => pure (op terms)) l' := by
  have hloop : ∀ s rest terms, SepChain (ws (tagNoCase name.toList)) q s rest terms →
      ∀ w g, Word u l w g → Unblank s → (g = true → Unident u s) →
      ∃ w' g', w ++ s = w' ++ rest ∧ Word u l' w' g' ∧ Unblank rest ∧
        (g' = true → Unident u rest) := by
    intro s rest terms h
    induction h with
    | stop s =>
      intro w g hw hs hg
      exact ⟨w, g, rfl, hone hw, hs, hg⟩
    | next hsep hterm _ ih =>
      intro w g hw hs hg
      obtain ⟨b₁, t₁, t₂, b₂, rfl, hb₁, -, htag, rfl, hb₂, -⟩ := ws_ok hsep
      obtain rfl := hb₁.eq_nil hs
      obtain ⟨k, rfl, hk⟩ := tagNoCase_ok htag
      obtain rfl := closed_of_keyword hk (List.all_eq_true.mp hn) hne hg
      obtain ⟨w₂, g₂, rfl, hw₂, hu₂, hg₂⟩ := hq _ _ _ hterm
      obtain ⟨w', g', he, hw', hr⟩ := ih _ _ (hw₂.blanks hb₂) hu₂ hg₂
      refine ⟨w ++ (k ++ w'), g', ?_, hcons hw hk hw', hr⟩
      simp only [List.nil_append, List.append_assoc] at he ⊢
      rw [he]
  intro s rest e h
  obtain ⟨s₁, terms, h1, h⟩ := bind_ok h
  cases h
  obtain ⟨s₂, a, terms, ha, -, hterms⟩ := separatedList1_ok h1
  obtain ⟨w, g, rfl, hw, hu, hg⟩ := hq _ _ _ ha
  exact hloop _ _ _ hterms w g hw hu hg

theorem sound_conj (hp : Sound u p .disj) : Sound u (parseAndExpression u p) .conj :=
  sound_list (sound_term hp) (by decide) (by decide) .oneTerm .and

/-- What the parser reads is a disjunction. -/
theorem parseOrAt_sound (n : Nat) : Sound u (parseOrAt u n) .disj := by
  induction n with
  | zero =>
    intro s rest e h
    cases h
  | succ n ih => exact sound_list (sound_conj ih) (by decide) (by decide) .oneConj .or

end Sound

end Sp00ky.Ssp
