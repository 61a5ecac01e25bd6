/-
  How much of a permission text is applied.

  `build_injection` parses `SELECT * FROM t WHERE <text>` and drops what the parser
  leaves. The `WHERE` clause reads the text to its end exactly when it is a sentence
  of the grammar; a conjunct that is none is dropped in silence.
-/
import Sp00ky.Ssp.PermissionInject
import Sp00ky.Ssp.WhereGrammar

namespace Sp00ky.Ssp

open Std Lib Lib.Parser

/-- A sentence of the grammar, up to whitespace that is no blank of the grammar. -/
def Sentence (u : Unicode) (x : List Char) : Prop :=
  ∃ w v g, x = w ++ v ∧ Word u .disj w g ∧ Unblank v ∧ ∀ c ∈ v, isWhitespace c = true

/-- A permission text as the `WHERE` clause gets it. -/
def whereText (text : String) : List Char := trimEndBy (· == ';') (permissionText text)

/-- The `WHERE` clause of `parse_full_query`. -/
def whereClause (u : Unicode) : Parser (Option WhereExpr) :=
  opt (ws (parseWhereLogic (parseOrExpression u)))

/-- The clause reads the whole text, and the permission's plan is built from what it read. -/
def WholeTextRead (u : Unicode) (table : String) (text : String) (links : LinkMap) : Prop :=
  ∃ rest e orderBy limit start,
    whereClause u ("WHERE ".toList ++ whereText text) = .ok rest (some e) ∧
    (∀ c ∈ rest, isWhitespace c = true) ∧
    convertSurqlToDbspWithLinks u (syntheticQuery table (permissionText text)) links =
      some (lowerLinkTraversals links (buildPlan [.all] table (some e) orderBy limit start))

/-! ## Trimming -/

section Trim

theorem trimEndBy_append {f : Char → Bool} {s t : List Char} {c : Char} (hc : s.getLast? = some c)
    (hf : f c = false) : trimEndBy f (s ++ t) = s ++ trimEndBy f t := by
  obtain ⟨s, rfl⟩ : ∃ s', s = s' ++ [c] := List.getLast?_eq_some_iff.mp hc
  unfold trimEndBy
  rw [List.reverse_append, List.dropWhile_append]
  split
  · next h =>
    have hnil : List.dropWhile f t.reverse = [] := by simpa using h
    rw [hnil]
    simp [hf]
  · simp

theorem trimEndBy_of_last {f : Char → Bool} {s : List Char} (h : ∀ c ∈ s.getLast?, f c = false) :
    trimEndBy f s = s := by
  unfold trimEndBy
  rw [dropWhile_of_head, List.reverse_reverse]
  simpa using h

theorem trimEndBy_last (f : Char → Bool) (s : List Char) :
    ∀ c ∈ (trimEndBy f s).getLast?, f c = false := by
  intro c hc
  rw [trimEndBy, List.getLast?_reverse] at hc
  exact head_dropWhile _ c hc

end Trim

/-! ## The query of a permission -/

section Query

variable {u : Unicode}

theorem Word.ne_nil {l : Level} {w : List Char} {g : Bool} (h : Word u l w g) : w ≠ [] := by
  induction h with
  | field _ hi =>
    obtain ⟨c, cs, rfl, -⟩ := hi
    simp
  | param | membership | paren | subquery | subqueryWhere => simp
  | oneTerm _ ih => exact ih
  | oneConj _ ih => exact ih
  | and _ _ _ ih _ => simp [ih]
  | or _ _ _ ih _ => simp [ih]

/-- The first blank behind `WHERE` does not matter to the expression. -/
theorem parseOrAt_space (n : Nat) (x : List Char) :
    parseOrAt u n (' ' :: x) = parseOrAt u n x := by
  have h : (' ' :: x).dropWhile isMultispace = x.dropWhile isMultispace := rfl
  rw [← parseOrAt_dropBlanks, h, parseOrAt_dropBlanks]

theorem blanks_space : Blanks [' '] := by
  intro c hc
  obtain rfl := List.mem_singleton.mp hc
  decide

theorem keyword_self (k : String) : Keyword k k.toList := by
  unfold Keyword
  induction k.toList with
  | nil => exact .nil
  | cons c cs ih => exact .cons (by simp) ih

theorem star_reads (p : Parser RawPlan) (r : List Char) :
    parseProjectionItem u p ('*' :: r) = .ok r .all := by
  have hopen : delimited (ws (char '(')) p (ws (char ')')) ('*' :: r) = .error :=
    bind_of_error (ws_of_error (b := []) blanks_nil (unblank_cons (by decide))
      (char_error (by simp)))
  have hsub : parseSubqueryProjection u p ('*' :: r) = .error := bind_of_error hopen
  rw [parseProjectionItem, alt_of_error hsub]
  exact alt_of_ok (value_of_ok (tag_append ['*'] r))

theorem fields_read (p : Parser RawPlan) (r : List Char) :
    separatedList1 (ws (char ',')) (parseProjectionItem u p) ("* FROM ".toList ++ r) =
      .ok (" FROM ".toList ++ r) [.all] := by
  refine separatedList1_of_run (star_reads p ([' '] ++ ('F' :: ("ROM ".toList ++ r)))) (.stop ?_)
  exact ws_of_error blanks_space (unblank_cons (by decide)) (char_error (by simp))

/-- The query up to its table. -/
theorem parseFullAt_head {table : String} (ht : IdentWord u table.toList) (n : Nat)
    (x : List Char) {rest : List Char} {plan : RawPlan}
    (h : parseFullAt u (n + 1) ("SELECT * FROM ".toList ++ (table.toList ++ (" WHERE".toList ++ x)))
      = .ok rest plan) :
    ∃ r condition orderBy limit start, whereClause u ("WHERE".toList ++ x) = .ok r condition ∧
      plan = buildPlan [.all] table condition orderBy limit start := by
  have hselect : ws (tagNoCase "SELECT".toList)
      ("SELECT * FROM ".toList ++ (table.toList ++ (" WHERE".toList ++ x))) =
      .ok ("* FROM ".toList ++ (table.toList ++ (" WHERE".toList ++ x))) () :=
    sep_reads (keyword_self "SELECT") (List.all_eq_true.mp (by decide)) (by decide)
      (" * FROM ".toList ++ (table.toList ++ (" WHERE".toList ++ x)))
  have hfrom : ws (tagNoCase "FROM".toList)
      (" FROM ".toList ++ (table.toList ++ (" WHERE".toList ++ x))) =
      .ok (table.toList ++ (" WHERE".toList ++ x)) () := by
    have hread := tagNoCase_reads (keyword_self "FROM")
      ([' '] ++ (table.toList ++ (" WHERE".toList ++ x)))
    exact ws_of_ok (b := [' ']) blanks_space
      ((keyword_self "FROM").unblank (List.all_eq_true.mp (by decide)) (by decide) _) hread
      blanks_space (ht.unblank _)
  have htable : ws (parseIdentifier u) (table.toList ++ (" WHERE".toList ++ x)) =
      .ok ("WHERE".toList ++ x) table := by
    have hread := parseIdentifier_reads ht (unident_blanks blanks_space (by simp) :
      Unident u ([' '] ++ ("WHERE".toList ++ x)))
    rw [String.ofList_toList] at hread
    exact ws_of_ok (b := []) blanks_nil (ht.unblank _) hread blanks_space
      ((keyword_self "WHERE").unblank (List.all_eq_true.mp (by decide)) (by decide) _)
  rw [parseFullAt, bind_of_ok hselect, bind_of_ok (fields_read _ _), bind_of_ok hfrom,
    bind_of_ok htable] at h
  obtain ⟨r, condition, h1, h⟩ := bind_ok h
  obtain ⟨_, orderBy, -, h⟩ := bind_ok h
  obtain ⟨_, limit, -, h⟩ := bind_ok h
  obtain ⟨_, start, -, h⟩ := bind_ok h
  cases h
  exact ⟨r, condition, orderBy, limit, start, h1, rfl⟩

/-- What the clause reads is what the expression parser reads behind `WHERE`. -/
theorem whereClause_ok {x r : List Char} {condition : Option WhereExpr}
    (h : whereClause u ("WHERE".toList ++ x) = .ok r condition) :
    ∃ e, condition = some e ∧ parseOrExpression u x = .ok r e := by
  have htag := tagNoCase_reads (keyword_self "WHERE") x
  have hub : Unblank ("WHERE".toList ++ x) :=
    (keyword_self "WHERE").unblank (List.all_eq_true.mp (by decide)) (by decide) x
  have hlogic : parseWhereLogic (parseOrExpression u) ("WHERE".toList ++ x) =
      cut (parseOrExpression u) x := preceded_of_ok htag
  cases hx : parseOrExpression u x with
  | ok s e =>
    obtain ⟨w, g, -, -, hs, -⟩ := parseOrAt_sound _ _ _ _ hx
    have hclause : whereClause u ("WHERE".toList ++ x) = .ok (s.dropWhile isMultispace) (some e) :=
      opt_of_ok (ws_of_unblank hub (hlogic.trans (cut_of_ok hx)))
    rw [dropWhile_of_head hs, h] at hclause
    cases hclause
    exact ⟨e, rfl, rfl⟩
  | error | failure =>
    have hcut : cut (parseOrExpression u) x = .failure := by rw [cut, hx]
    have hclause := opt_of_failure (ws_of_failure (b := []) blanks_nil hub (hlogic.trans hcut))
    cases h.symm.trans hclause

theorem whereClause_of_ok {x r : List Char} {e : WhereExpr} (h : parseOrExpression u x = .ok r e) :
    whereClause u ("WHERE".toList ++ x) = .ok r (some e) := by
  obtain ⟨w, g, -, -, hr, -⟩ := parseOrAt_sound _ _ _ _ h
  have hlogic : parseWhereLogic (parseOrExpression u) ("WHERE".toList ++ x) = .ok r e :=
    (preceded_of_ok (tagNoCase_reads (keyword_self "WHERE") x)).trans (cut_of_ok h)
  have hclause := opt_of_ok (ws_of_unblank
    ((keyword_self "WHERE").unblank (List.all_eq_true.mp (by decide)) (by decide) x) hlogic)
  rwa [dropWhile_of_head hr] at hclause

theorem parseOrExpression_nil {r : List Char} {e : WhereExpr} :
    parseOrExpression u [] ≠ .ok r e := by
  intro h
  obtain ⟨w, g, hw, hword, -⟩ := parseOrAt_sound _ _ _ _ h
  exact hword.ne_nil (List.append_eq_nil_iff.mp hw.symm).1

/-- The query before the permission text, up to its `WHERE`. -/
def queryHead (table : String) : List Char :=
  "SELECT * FROM ".toList ++ (table.toList ++ " WHERE".toList)

theorem queryHead_first (table : String) (r : List Char) :
    (queryHead table ++ r).dropWhile isWhitespace = queryHead table ++ r := by
  have hhead : queryHead table = 'S' :: ("ELECT * FROM ".toList ++ (table.toList ++ " WHERE".toList)) :=
    rfl
  rw [hhead, List.cons_append, List.dropWhile_cons_of_neg (by decide)]

theorem queryHead_last (table : String) : (queryHead table).getLast? = some 'E' := by
  have hlast : " WHERE".toList.getLast? = some 'E' := by decide
  unfold queryHead
  rw [List.getLast?_append, List.getLast?_append, hlast, Option.some_or, Option.some_or]

theorem syntheticQuery_eq (table : String) (raw : List Char) :
    syntheticQuery table raw = queryHead table ++ (' ' :: raw) := by
  have hspace : " WHERE ".toList = " WHERE".toList ++ [' '] := rfl
  unfold syntheticQuery queryHead
  rw [hspace]
  simp only [List.append_assoc, List.singleton_append]

/-- The query as it is parsed. -/
theorem parsedQuery_eq {table : String} {raw : List Char} (hne : raw ≠ [])
    (hraw : ∀ c ∈ raw.getLast?, isWhitespace c = false) :
    trimEndBy (· == ';') (trim (syntheticQuery table raw)) =
      queryHead table ++ (' ' :: trimEndBy (· == ';') raw) := by
  have hlast : ∀ c ∈ (' ' :: raw).getLast?, isWhitespace c = false := by
    rw [List.getLast?_cons_of_ne_nil hne]
    exact hraw
  rw [syntheticQuery_eq, trim, queryHead_first,
    trimEndBy_append (queryHead_last table) (by decide), trimEndBy_of_last hlast,
    trimEndBy_append (queryHead_last table) (by decide), ← List.singleton_append,
    trimEndBy_append (c := ' ') rfl (by decide), List.singleton_append]

theorem parsedQuery_nil (table : String) :
    trimEndBy (· == ';') (trim (syntheticQuery table [])) = queryHead table ++ [] := by
  have hblank : trimEndBy isWhitespace [' '] = [] := by decide
  have hsemi : trimEndBy (· == ';') [] = [] := rfl
  rw [syntheticQuery_eq, trim, queryHead_first,
    trimEndBy_append (queryHead_last table) (by decide), hblank,
    trimEndBy_append (queryHead_last table) (by decide), hsemi]

theorem parseFullQuery_ok {table : String} (ht : IdentWord u table.toList)
    {x rest : List Char} {plan : RawPlan}
    (h : parseFullQuery u (queryHead table ++ x) = .ok rest plan) :
    ∃ r e orderBy limit start, parseOrExpression u x = .ok r e ∧
      plan = buildPlan [.all] table (some e) orderBy limit start := by
  have hassoc : queryHead table ++ x =
      "SELECT * FROM ".toList ++ (table.toList ++ (" WHERE".toList ++ x)) := by
    unfold queryHead
    rw [List.append_assoc, List.append_assoc]
  rw [parseFullQuery, hassoc] at h
  obtain ⟨r, condition, orderBy, limit, start, hclause, rfl⟩ := parseFullAt_head ht _ _ h
  obtain ⟨e, rfl, he⟩ := whereClause_ok hclause
  exact ⟨r, e, orderBy, limit, start, he, rfl⟩

end Query

/-! ## What is read of the text -/

section Permission

variable {u : Unicode}

/-- A permission that is not refused was parsed. -/
theorem buildInjection_parsed {table text : String} {perms : ExtTreeMap String String}
    {params : Option Json} {links : LinkMap} {inj : PermInjection}
    (htext : perms[table]? = some text)
    (h : buildInjection u table perms params links = .ok (some inj)) :
    ∃ rest plan, parseFullQuery u
        (trimEndBy (· == ';') (trim (syntheticQuery table (permissionText text)))) =
          .ok rest plan ∧
      convertSurqlToDbspWithLinks u (syntheticQuery table (permissionText text)) links =
        some (lowerLinkTraversals links plan) := by
  unfold buildInjection at h
  simp only [htext] at h
  split at h
  · cases h
  · split at h
    · cases h
    · split at h
      · cases h
      · split at h
        · cases h
        · split at h
          · cases h
          · next plan hplan =>
            rw [convertSurqlToDbspWithLinks] at hplan ⊢
            split at hplan
            · next rest plan hparse =>
              rw [hparse]
              exact ⟨rest, plan, rfl, rfl⟩
            · cases hplan

/-- The query of a permission text that is not refused: the clause reads some expression. -/
theorem permission_reads {table text : String} (ht : IdentWord u table.toList)
    {perms : ExtTreeMap String String} {params : Option Json} {links : LinkMap}
    {inj : PermInjection} (htext : perms[table]? = some text)
    (h : buildInjection u table perms params links = .ok (some inj)) :
    ∃ rest e orderBy limit start,
      parseOrExpression u (' ' :: whereText text) = .ok rest e ∧
      convertSurqlToDbspWithLinks u (syntheticQuery table (permissionText text)) links =
        some (lowerLinkTraversals links (buildPlan [.all] table (some e) orderBy limit start)) := by
  obtain ⟨rest, plan, hparse, hconv⟩ := buildInjection_parsed htext h
  by_cases hnil : permissionText text = []
  · rw [hnil, parsedQuery_nil] at hparse
    obtain ⟨r, e, orderBy, limit, start, he, -⟩ := parseFullQuery_ok ht hparse
    exact absurd he parseOrExpression_nil
  · rw [parsedQuery_eq hnil (trimEndBy_last _ _)] at hparse
    obtain ⟨r, e, orderBy, limit, start, he, rfl⟩ := parseFullQuery_ok ht hparse
    exact ⟨r, e, orderBy, limit, start, he, hconv⟩

/-- Whitespace of any kind ends every word. -/
theorem whitespace_lead {c : Char} (h : isWhitespace c = true) :
    u.identChar c = false ∧ c.isDigit = false ∧ ∀ d : Char, d.isAlpha = true → c.toLower ≠ d := by
  have hident : u.identChar c = false := by
    have hne : ∀ d : Char, isWhitespace d = false → (c == d) = false := by
      intro d hd
      refine beq_false_of_ne ?_
      rintro rfl
      rw [h] at hd
      cases hd
    simp only [Unicode.identChar, u.blank c h, hne '_' (by decide), hne ':' (by decide),
      hne '.' (by decide), Bool.or_false]
  refine ⟨hident, identChar_isDigit hident, ?_⟩
  rintro d hd rfl
  rw [isAlpha_toLower] at hd
  rw [identChar_of_isAlpha hd] at hident
  cases hident

theorem restOk_whitespace {v : List Char} (g : Bool) (hu : Unblank v)
    (hv : ∀ c ∈ v, isWhitespace c = true) : RestOk u g v := by
  refine ⟨hu, ?_, ?_⟩
  · intro c hc
    exact (whitespace_lead (u := u) (hv c (List.mem_of_mem_head? hc))).2.1
  · intro _ c hc
    exact (whitespace_lead (hv c (List.mem_of_mem_head? hc))).1

/-- The clause reads a text to its end exactly if it is a sentence. -/
theorem parseOrExpression_sentence {x rest : List Char} {e : WhereExpr}
    (h : parseOrExpression u (' ' :: x) = .ok rest e) :
    (∀ c ∈ rest, isWhitespace c = true) ↔ Sentence u x := by
  rw [parseOrExpression, parseOrAt_space] at h
  constructor
  · intro hrest
    obtain ⟨w, g, hx, hw, hu, -⟩ := parseOrAt_sound _ _ _ _ h
    exact ⟨w, rest, g, hx, hw, hu, hrest⟩
  · rintro ⟨w, v, g, rfl, hw, hu, hv⟩
    have hlead : ∀ d : Char, d.isAlpha = true → ∀ c ∈ v.head?, c.toLower ≠ d := by
      intro d hd c hc
      exact (whitespace_lead (u := u) (hv c (List.mem_of_mem_head? hc))).2.2 d hd
    have hlen : w.length < (w ++ v).length + 1 := by
      rw [List.length_append]
      omega
    obtain ⟨e', he'⟩ := (word_reads hw _ hlen).disj (restOk_whitespace g hu hv)
      (hlead 'a' (by decide)) (hlead 'o' (by decide))
    rw [List.length_cons, he'] at h
    cases h
    exact hv

/-- A permission text is applied as a whole exactly if it is a sentence of the grammar. -/
theorem permission_whole_iff {table text : String} (ht : IdentWord u table.toList)
    {perms : ExtTreeMap String String} {params : Option Json} {links : LinkMap}
    {inj : PermInjection} (htext : perms[table]? = some text)
    (h : buildInjection u table perms params links = .ok (some inj)) :
    WholeTextRead u table text links ↔ Sentence u (whereText text) := by
  obtain ⟨rest, e, orderBy, limit, start, he, hconv⟩ := permission_reads ht htext h
  have hword : "WHERE ".toList = "WHERE".toList ++ [' '] := by decide +kernel
  have hsplit : "WHERE ".toList ++ whereText text = "WHERE".toList ++ ' ' :: whereText text := by
    rw [hword, List.append_assoc, List.singleton_append]
  have hclause : whereClause u ("WHERE ".toList ++ whereText text) = .ok rest (some e) := by
    rw [hsplit]
    exact whereClause_of_ok he
  rw [← parseOrExpression_sentence he]
  constructor
  · rintro ⟨rest', e', -, -, -, hclause', hrest, -⟩
    rw [hclause] at hclause'
    cases hclause'
    exact hrest
  · intro hrest
    exact ⟨rest, e, orderBy, limit, start, hclause, hrest, hconv⟩

end Permission

/-! ## Two texts -/

theorem isAlphanum_whitespace (c : Char) (h : isWhitespace c = true) : c.isAlphanum = false := by
  by_contra halnum
  rw [Bool.not_eq_false] at halnum
  simp only [isWhitespace, Bool.or_eq_true, Bool.and_eq_true, decide_eq_true_eq, beq_iff_eq] at h
  simp only [Char.isAlphanum, Char.isAlpha, Char.isUpper, Char.isLower, Char.isDigit,
    Bool.or_eq_true, Bool.and_eq_true, decide_eq_true_eq, UInt32.le_iff_toNat_le, ge_iff_le]
    at halnum
  have hval : c.toNat = c.val.toNat := rfl
  have h0 : '0'.val.toNat = 48 := rfl
  have h9 : '9'.val.toNat = 57 := rfl
  have hA : 'A'.val.toNat = 65 := rfl
  have hZ : 'Z'.val.toNat = 90 := rfl
  have ha : 'a'.val.toNat = 97 := rfl
  have hz : 'z'.val.toNat = 122 := rfl
  omega

/-- The characters of the texts below. -/
def asciiUnicode : Unicode := ⟨Char.isAlphanum, fun _ _ => rfl, isAlphanum_whitespace⟩

/-- One table `t` with a permission. -/
def onePermission (text : String) : ExtTreeMap String String :=
  (∅ : ExtTreeMap String String).insert "t" text

/-- A permission that is applied. -/
def isInjected : Except InjectError (Option PermInjection) → Bool
  | .ok (some _) => true
  | _ => false

theorem exists_of_isInjected {r : Except InjectError (Option PermInjection)}
    (h : isInjected r = true) : ∃ inj, r = .ok (some inj) := by
  unfold isInjected at h
  split at h
  · exact ⟨_, rfl⟩
  · cases h

/-- What the clause leaves of a text is blank. -/
def leavesBlank (r : PResult (Option WhereExpr)) : Bool :=
  match r with
  | .ok rest _ => rest.all isWhitespace
  | _ => true

def ownerText : String :=
  "owner = $me AND (public = true OR id IN (SELECT VALUE out FROM member WHERE who = $me));"

def notText : String := "a = 1 AND NOT b = 2"

theorem permission_whole_iff_owner :
    ∃ inj, buildInjection asciiUnicode "t" (onePermission ownerText) none ∅ =
        .ok (some inj) ∧
      (WholeTextRead asciiUnicode "t" ownerText ∅ ↔
        Sentence asciiUnicode (whereText ownerText)) := by
  obtain ⟨inj, hinj⟩ := exists_of_isInjected
    (r := buildInjection asciiUnicode "t" (onePermission ownerText) none ∅)
    (by decide +kernel)
  refine ⟨inj, hinj, permission_whole_iff ?_ (by decide +kernel) hinj⟩
  exact ⟨'t', [], rfl, by decide, by simp⟩

/-- The conjunct behind `NOT` is dropped. -/
theorem permission_conjunct_dropped :
    (∃ inj, buildInjection asciiUnicode "t" (onePermission notText) none ∅ = .ok (some inj)) ∧
      ¬ WholeTextRead asciiUnicode "t" notText ∅ := by
  refine ⟨exists_of_isInjected (by decide +kernel), ?_⟩
  rintro ⟨rest, e, -, -, -, hclause, hrest, -⟩
  have hleft : leavesBlank
      (whereClause asciiUnicode ("WHERE ".toList ++ whereText notText)) = false := by
    decide +kernel
  rw [hclause] at hleft
  simp only [leavesBlank, List.all_eq_false] at hleft
  obtain ⟨c, hc, hcw⟩ := hleft
  exact hcw (hrest c hc)

end Sp00ky.Ssp
