/-
  The record ids the engine mints (`packages/schedule-core/src/ids.rs`).

  An id joins fragments with an underscore. A fragment that cannot stand as it is written is
  lowered, cut and marked with the hash of what it was; a fragment that can is kept, also when it
  reads like one that was marked, and in a job's id a hyphen becomes an underscore without a mark.
  Two marked fragments are never alike. So two names have one id exactly when one of them reads
  as the other is marked (`Clash`), and two ids that join an open fragment are also one when a
  fragment goes on where the other is joined (`RunsInto`).

  The digest is a parameter; what is asked of it is that it tells the strings in question apart.
-/
import Sp00ky.Lib.Joined
import Mathlib.Algebra.Order.Ring.Int
import Std.Data.String.ToInt

namespace Sp00ky.ScheduleCore.Ids

open Lib

/-! ## Fragments -/

/-- A record id. -/
structure Ref where
  table : String
  key : String
deriving DecidableEq, Repr

/-- `{byte:02x}`. -/
def hexByte (byte : UInt8) : List Char :=
  [Nat.digitChar (byte.toNat / 16), Nat.digitChar (byte.toNat % 16)]

def maxFragment : Nat := 48

/-- A character of a fragment, and whether it is rewritten. -/
def sanitizeChar (allowHyphen : Bool) (ch : Char) : Char × Bool :=
  if ('a' ≤ ch ∧ ch ≤ 'z') ∨ ('0' ≤ ch ∧ ch ≤ '9') ∨ ch = '_' then (ch, false)
  else if ch = '-' then (if allowHyphen then ch else '_', false)
  else if 'A' ≤ ch ∧ ch ≤ 'Z' then (ch.toLower, true)
  else ('_', true)

section

variable (sha256 : String → Vector UInt8 32)

def shortHash (input : String) : String :=
  String.ofList (((sha256 input).toList.take 6).flatMap hexByte)

def sanitizeInner (allowHyphen : Bool) (fragment : String) : String :=
  let chars := fragment.toList.map (sanitizeChar allowHyphen)
  let out := chars.map (·.1)
  let rewritten := chars.any (·.2) || maxFragment < out.length
  let out := out.take maxFragment
  let out := if rewritten then out ++ '_' :: (shortHash sha256 fragment).toList else out
  String.ofList (if out = [] then (shortHash sha256 fragment).toList else out)

def sanitize (fragment : String) : String := sanitizeInner sha256 true fragment

def sanitizeJob (fragment : String) : String := sanitizeInner sha256 false fragment

/-! ## Ids -/

def runKey (scheduleName : String) (fireAtMs : Int) (fanOutKey : String) : String :=
  sanitize sha256 scheduleName ++ "_" ++ fireAtMs.repr ++ "_" ++ shortHash sha256 fanOutKey

def schedule (name : String) : Ref := ⟨"_00_schedule", sanitize sha256 name⟩

def scheduleKey (scheduleName fanOutKey : String) : Ref :=
  ⟨"_00_schedule_key", sanitize sha256 scheduleName ++ "_" ++ shortHash sha256 fanOutKey⟩

def stepRun (runKey step : String) : Ref := ⟨"_00_step_run", runKey ++ "_" ++ sanitize sha256 step⟩

def stepJob (table runKey step : String) : Ref :=
  ⟨table, "wf_" ++ sanitizeJob sha256 runKey ++ "_" ++ sanitizeJob sha256 step⟩

def stepJobAttempt (table runKey step : String) (attempt : Int) : Ref :=
  let base := stepJob sha256 table runKey step
  if attempt ≤ 0 then base else ⟨table, base.key ++ "_r" ++ attempt.repr⟩

def rerunKey (workflowName : String) (fireAtMs : Int) (sourceRunKey : String) : String :=
  runKey sha256 workflowName fireAtMs ("rerun:" ++ sourceRunKey)

/-- The letters and digits of a bucket. -/
def stamp (bucket : String) : String := String.ofList (bucket.toList.filter Char.isAlphanum)

def rollup (scope name bucket : String) : Ref :=
  ⟨"_00_run_rollup", sanitize sha256 scope ++ "_" ++ sanitize sha256 name ++ "_" ++ stamp bucket⟩

end

/-! ## Fragments that are alike -/

/-- A fragment that stands as it is written. -/
def Plain (allowHyphen : Bool) (fragment : String) : Prop :=
  fragment ≠ "" ∧ fragment.toList.length ≤ maxFragment ∧
    ∀ ch ∈ fragment.toList, (sanitizeChar allowHyphen ch).2 = false

instance (allowHyphen : Bool) (fragment : String) : Decidable (Plain allowHyphen fragment) :=
  have : Decidable (∀ ch ∈ fragment.toList, (sanitizeChar allowHyphen ch).2 = false) :=
    List.decidableBAll _ _
  inferInstanceAs (Decidable (_ ∧ _ ∧ _))

/-- Its letters, lowered, and underscores for the rest. -/
def spelled (allowHyphen : Bool) (fragment : String) : String :=
  String.ofList (fragment.toList.map fun ch => (sanitizeChar allowHyphen ch).1)

section

variable (sha256 : String → Vector UInt8 32)

/-- What stands for a fragment that cannot be kept. -/
def marked (allowHyphen : Bool) (fragment : String) : String :=
  if fragment = "" then shortHash sha256 fragment
  else String.ofList ((spelled allowHyphen fragment).toList.take maxFragment) ++ "_" ++
    shortHash sha256 fragment

/-- One fragment reads as the other does, or as it is marked. -/
def Clash (allowHyphen : Bool) (x y : String) : Prop :=
  x ≠ y ∧ (Plain allowHyphen x ∧ Plain allowHyphen y ∧ spelled allowHyphen x = spelled allowHyphen y ∨
    Plain allowHyphen x ∧ ¬ Plain allowHyphen y ∧ spelled allowHyphen x = marked sha256 allowHyphen y ∨
    ¬ Plain allowHyphen x ∧ Plain allowHyphen y ∧ marked sha256 allowHyphen x = spelled allowHyphen y)

instance (allowHyphen : Bool) (x y : String) : Decidable (Clash sha256 allowHyphen x y) :=
  inferInstanceAs (Decidable (_ ∧ _))

/-- Two fragments that have one text. -/
def Alike (allowHyphen : Bool) (x y : String) : Prop := x = y ∨ Clash sha256 allowHyphen x y

/-- The first attempt at a step whose name reads as another step's later attempt. -/
def NamedAfter (step : String) (attempt : Int) (step' : String) (attempt' : Int) : Prop :=
  attempt ≤ 0 ∧ 0 < attempt' ∧ Plain false step ∧
    spelled false step = sanitizeJob sha256 step' ++ "_r" ++ attempt'.repr

end

section

variable {sha256 : String → Vector UInt8 32} {allowHyphen : Bool} {x y : String}

theorem digitChar_ne : ∀ n < 16, Nat.digitChar n ≠ '_' ∧ Nat.digitChar n ≠ 'r' := by decide

/-- A hash has neither an underscore nor an `r` in it. -/
theorem ne_of_mem_shortHash {c : Char} (h : c ∈ (shortHash sha256 x).toList) : c ≠ '_' ∧ c ≠ 'r' := by
  unfold shortHash at h
  rw [String.toList_ofList] at h
  obtain ⟨byte, -, hc⟩ := List.mem_flatMap.mp h
  rcases List.mem_cons.mp hc with rfl | hc
  · have hlt := byte.toNat_lt
    exact digitChar_ne _ (by omega)
  · exact (List.mem_singleton.mp hc) ▸ digitChar_ne _ (Nat.mod_lt _ (by decide))

theorem underscore_notMem_shortHash : '_' ∉ (shortHash sha256 x).toList :=
  fun h => (ne_of_mem_shortHash h).1 rfl

theorem toList_spelled (x : String) :
    (spelled allowHyphen x).toList = x.toList.map fun ch => (sanitizeChar allowHyphen ch).1 :=
  String.toList_ofList

/-- A fragment that is not empty is kept, or it is rewritten. -/
theorem rewritten_eq_false_iff (hx : x ≠ "") :
    ((x.toList.map (sanitizeChar allowHyphen)).any (·.2) ||
      maxFragment < ((x.toList.map (sanitizeChar allowHyphen)).map (·.1)).length) = false ↔
    Plain allowHyphen x := by
  unfold Plain
  simp only [Bool.or_eq_false_iff, List.any_map, List.any_eq_false, decide_eq_false_iff_not,
    List.length_map, Function.comp_apply, Bool.not_eq_true, not_lt, hx, ne_eq, not_false_eq_true,
    true_and]
  exact and_comm

theorem sanitizeInner_eq (x : String) : sanitizeInner sha256 allowHyphen x =
    if Plain allowHyphen x then spelled allowHyphen x else marked sha256 allowHyphen x := by
  apply String.toList_injective
  unfold sanitizeInner
  rw [String.toList_ofList]
  by_cases hx : x = ""
  · subst hx
    simp [Plain, marked, maxFragment]
  have hne : x.toList ≠ [] := fun h => hx (String.toList_eq_nil_iff.mp h)
  have hout : ((x.toList.map (sanitizeChar allowHyphen)).map (·.1)).take maxFragment ≠ [] := by
    simp [hne, maxFragment]
  by_cases hp : Plain allowHyphen x
  · have hlen : ((x.toList.map (sanitizeChar allowHyphen)).map (·.1)).length ≤ maxFragment := by
      simpa using hp.2.1
    rw [(rewritten_eq_false_iff hx).mpr hp, if_pos hp, if_neg Bool.false_ne_true, if_neg hout,
      List.take_of_length_le hlen, toList_spelled, List.map_map]
    rfl
  · have hrew := (Bool.not_eq_false _).mp (mt (rewritten_eq_false_iff hx).mp hp)
    rw [hrew, if_pos rfl, if_neg (by simp), if_neg hp, marked, if_neg hx, String.toList_append, String.toList_append, String.toList_ofList, toList_spelled,
      List.map_map, List.append_assoc]
    rfl

/-- Two fragments that are marked alike have one hash. -/
theorem shortHash_of_marked (h : marked sha256 allowHyphen x = marked sha256 allowHyphen y) :
    shortHash sha256 x = shortHash sha256 y := by
  unfold marked at h
  split at h
  next =>
    split at h
    next => exact h
    next =>
      -- the hash alone has no underscore
      exfalso
      have hno : '_' ∉ (shortHash sha256 x).toList := underscore_notMem_shortHash
      refine hno ?_
      rw [h]
      simp
  next =>
    split at h
    next =>
      exfalso
      have hno : '_' ∉ (shortHash sha256 y).toList := underscore_notMem_shortHash
      refine hno ?_
      rw [← h]
      simp
    next =>
      have hlist := congrArg String.toList h
      simp only [String.toList_append, List.append_assoc] at hlist
      exact String.toList_injective
        (join_inj underscore_notMem_shortHash underscore_notMem_shortHash hlist).2

/-- Two fragments have one text if they are one, or one reads as the other is marked. -/
theorem sanitizeInner_eq_iff (hinj : shortHash sha256 x = shortHash sha256 y → x = y) :
    sanitizeInner sha256 allowHyphen x = sanitizeInner sha256 allowHyphen y ↔
      Alike sha256 allowHyphen x y := by
  rw [sanitizeInner_eq, sanitizeInner_eq]
  unfold Alike Clash
  by_cases he : x = y
  · simp [he]
  · by_cases hx : Plain allowHyphen x <;> by_cases hy : Plain allowHyphen y
    · simp [he, hx, hy]
    · simp [he, hx, hy]
    · simp [he, hx, hy]
    · simp only [he, hx, hy, if_false, false_and, and_false, or_false, iff_false]
      exact fun h => he (hinj (shortHash_of_marked h))

/-- Fragments that are alike are one, if they do not clash. -/
theorem alike_imp_iff : (Alike sha256 allowHyphen x y → x = y) ↔ ¬ Clash sha256 allowHyphen x y := by
  constructor
  · exact fun h hc => hc.1 (h (.inr hc))
  · exact fun h hor => hor.resolve_right h

end

/-! ## Joins -/

/-- One pair of fragments goes on where the other is joined. -/
def RunsOn (a b a' b' : String) : Prop := RunsInto '_' a.toList b.toList a'.toList b'.toList

section

variable {a b a' b' : String}

theorem toList_joined (a b : String) : (a ++ "_" ++ b).toList = a.toList ++ '_' :: b.toList := by
  rw [String.toList_append, String.toList_append, List.append_assoc]
  rfl

theorem joined_eq_iff : a ++ "_" ++ b = a' ++ "_" ++ b' ↔
    (a = a' ∧ b = b') ∨ RunsOn a b a' b' ∨ RunsOn a' b' a b := by
  rw [← String.toList_inj, toList_joined, toList_joined, append_sep_eq_iff, String.toList_inj,
    String.toList_inj]
  rfl

theorem joined_inj (hb : '_' ∉ b.toList) (hb' : '_' ∉ b'.toList) :
    a ++ "_" ++ b = a' ++ "_" ++ b' ↔ a = a' ∧ b = b' := by
  constructor
  · intro h
    rw [← String.toList_inj, toList_joined, toList_joined] at h
    obtain ⟨ha, hb⟩ := join_inj hb hb' h
    exact ⟨String.toList_injective ha, String.toList_injective hb⟩
  · rintro ⟨rfl, rfl⟩
    rfl

theorem underscore_notMem_repr (n : Int) : '_' ∉ n.repr.toList := by
  rw [Int.repr_eq_if]
  split
  · rw [Nat.toList_repr]
    exact Nat.underscore_not_in_toDigits
  · rw [String.toList_append, Nat.toList_repr]
    simp [Nat.underscore_not_in_toDigits]

theorem underscore_notMem_stamp (bucket : String) : '_' ∉ (stamp bucket).toList := by
  unfold stamp
  rw [String.toList_ofList]
  exact fun h => absurd (List.of_mem_filter h) (by decide)

end

/-! ## Ids that are one -/

section

variable {sha256 : String → Vector UInt8 32} {x y k k' : String}

theorem runKey_eq_iff {ms ms' : Int} (hx : shortHash sha256 x = shortHash sha256 y → x = y)
    (hk : shortHash sha256 k = shortHash sha256 k' → k = k') :
    runKey sha256 x ms k = runKey sha256 y ms' k' ↔ Alike sha256 true x y ∧ ms = ms' ∧ k = k' := by
  unfold runKey
  rw [joined_inj underscore_notMem_shortHash underscore_notMem_shortHash,
    joined_inj (underscore_notMem_repr ms) (underscore_notMem_repr ms'), Int.repr_inj, sanitize,
    sanitize, sanitizeInner_eq_iff hx, and_assoc]
  exact and_congr_right fun _ => and_congr_right fun _ => ⟨hk, fun h => h ▸ rfl⟩

theorem scheduleKey_eq_iff (hx : shortHash sha256 x = shortHash sha256 y → x = y)
    (hk : shortHash sha256 k = shortHash sha256 k' → k = k') :
    scheduleKey sha256 x k = scheduleKey sha256 y k' ↔ Alike sha256 true x y ∧ k = k' := by
  unfold scheduleKey
  rw [Ref.mk.injEq, joined_inj underscore_notMem_shortHash underscore_notMem_shortHash, sanitize,
    sanitize, sanitizeInner_eq_iff hx]
  exact ⟨fun h => ⟨h.2.1, hk h.2.2⟩, fun h => ⟨rfl, h.1, h.2 ▸ rfl⟩⟩

theorem stepRun_eq_iff {rk rk' : String} (hx : shortHash sha256 x = shortHash sha256 y → x = y) :
    stepRun sha256 rk x = stepRun sha256 rk' y ↔ (rk = rk' ∧ Alike sha256 true x y) ∨
      RunsOn rk (sanitize sha256 x) rk' (sanitize sha256 y) ∨
      RunsOn rk' (sanitize sha256 y) rk (sanitize sha256 x) := by
  unfold stepRun
  rw [Ref.mk.injEq, joined_eq_iff, ← sanitizeInner_eq_iff hx]
  exact ⟨fun h => h.2, fun h => ⟨rfl, h⟩⟩

theorem rollup_eq_iff {scope scope' b b' : String}
    (hs : shortHash sha256 scope = shortHash sha256 scope' → scope = scope')
    (hx : shortHash sha256 x = shortHash sha256 y → x = y) :
    rollup sha256 scope x b = rollup sha256 scope' y b' ↔ stamp b = stamp b' ∧
      ((Alike sha256 true scope scope' ∧ Alike sha256 true x y) ∨
        RunsOn (sanitize sha256 scope) (sanitize sha256 x) (sanitize sha256 scope')
          (sanitize sha256 y) ∨
        RunsOn (sanitize sha256 scope') (sanitize sha256 y) (sanitize sha256 scope)
          (sanitize sha256 x)) := by
  unfold rollup
  rw [Ref.mk.injEq, joined_inj (underscore_notMem_stamp b) (underscore_notMem_stamp b'),
    joined_eq_iff, ← sanitizeInner_eq_iff hs, ← sanitizeInner_eq_iff hx]
  exact ⟨fun h => ⟨h.2.2, h.2.1⟩, fun h => ⟨rfl, h.2, h.1⟩⟩

/-- The part of a job's id that is not the run's. -/
def stepText (sha256 : String → Vector UInt8 32) (step : String) (attempt : Int) : String :=
  if attempt ≤ 0 then sanitizeJob sha256 step
  else sanitizeJob sha256 step ++ "_r" ++ attempt.repr

theorem stepJobAttempt_eq (table rk step : String) (attempt : Int) :
    stepJobAttempt sha256 table rk step attempt =
      ⟨table, "wf_" ++ sanitizeJob sha256 rk ++ "_" ++ stepText sha256 step attempt⟩ := by
  unfold stepJobAttempt stepJob stepText
  dsimp only
  split
  · rfl
  · simp only [String.append_assoc]

/-- A later attempt, as it is joined. -/
theorem toList_later (step : String) (attempt : Int) :
    (sanitizeJob sha256 step ++ "_r" ++ attempt.repr).toList =
      (sanitizeJob sha256 step).toList ++ '_' :: ('r' :: attempt.repr.toList) := by
  rw [String.toList_append, String.toList_append, List.append_assoc]
  rfl

theorem underscore_notMem_attempt (attempt : Int) : '_' ∉ 'r' :: attempt.repr.toList := by
  rw [List.mem_cons, not_or]
  exact ⟨by decide, underscore_notMem_repr attempt⟩

/-- Only a name that is kept reads as another step's later attempt. -/
theorem plain_of_later {attempt : Int}
    (h : sanitizeJob sha256 x = sanitizeJob sha256 y ++ "_r" ++ attempt.repr) : Plain false x := by
  by_contra hp
  have hlist := congrArg String.toList h
  rw [toList_later, sanitizeJob, sanitizeInner_eq, if_neg hp] at hlist
  unfold marked at hlist
  split at hlist
  next =>
    have hno : '_' ∉ (shortHash sha256 x).toList := underscore_notMem_shortHash
    refine hno ?_
    rw [hlist]
    simp
  next =>
    rw [toList_joined] at hlist
    obtain ⟨-, hhash⟩ :=
      join_inj underscore_notMem_shortHash (underscore_notMem_attempt attempt) hlist
    -- a hash has no `r` in it
    have hr : 'r' ∈ (shortHash sha256 x).toList := by
      rw [hhash]
      exact List.mem_cons_self
    exact (ne_of_mem_shortHash hr).2 rfl

theorem stepText_eq_later {attempt attempt' : Int} (ha : attempt ≤ 0) (ha' : 0 < attempt') :
    stepText sha256 x attempt = stepText sha256 y attempt' ↔ NamedAfter sha256 x attempt y attempt' := by
  unfold stepText NamedAfter
  rw [if_pos ha, if_neg (not_le.mpr ha')]
  constructor
  · intro h
    have hp := plain_of_later h
    refine ⟨ha, ha', hp, ?_⟩
    rw [← h, sanitizeJob, sanitizeInner_eq, if_pos hp]
  · rintro ⟨-, -, hp, h⟩
    rw [← h, sanitizeJob, sanitizeInner_eq, if_pos hp]

theorem stepText_eq_iff {attempt attempt' : Int}
    (hx : shortHash sha256 x = shortHash sha256 y → x = y) :
    stepText sha256 x attempt = stepText sha256 y attempt' ↔
      ((attempt = attempt' ∨ (attempt ≤ 0 ∧ attempt' ≤ 0)) ∧ Alike sha256 false x y) ∨
        NamedAfter sha256 x attempt y attempt' ∨ NamedAfter sha256 y attempt' x attempt := by
  have hno : ∀ {s t : String} {n n' : Int}, ¬ (n ≤ 0 ∧ 0 < n') → ¬ NamedAfter sha256 s n t n' :=
    fun h hn => h ⟨hn.1, hn.2.1⟩
  rcases le_or_gt attempt 0 with ha | ha <;> rcases le_or_gt attempt' 0 with ha' | ha'
  · -- two first attempts
    have h1 : ¬ (attempt ≤ 0 ∧ 0 < attempt') := by omega
    have h2 : ¬ (attempt' ≤ 0 ∧ 0 < attempt) := by omega
    unfold stepText
    rw [if_pos ha, if_pos ha', sanitizeJob, sanitizeJob, sanitizeInner_eq_iff hx]
    simp only [hno h1, hno h2, ha, ha', and_self, or_true, true_and, or_false]
  · have h1 : ¬ (attempt = attempt' ∨ (attempt ≤ 0 ∧ attempt' ≤ 0)) := by omega
    have h2 : ¬ (attempt' ≤ 0 ∧ 0 < attempt) := by omega
    rw [stepText_eq_later ha ha']
    simp only [h1, hno h2, false_and, false_or, or_false]
  · have h1 : ¬ (attempt = attempt' ∨ (attempt ≤ 0 ∧ attempt' ≤ 0)) := by omega
    have h2 : ¬ (attempt ≤ 0 ∧ 0 < attempt') := by omega
    rw [eq_comm, stepText_eq_later ha' ha]
    simp only [h1, hno h2, false_and, false_or]
  · -- two later attempts: the last underscore is the one before the number
    have h1 : ¬ (attempt ≤ 0 ∧ 0 < attempt') := by omega
    have h2 : ¬ (attempt' ≤ 0 ∧ 0 < attempt) := by omega
    have h3 : ¬ (attempt ≤ 0 ∧ attempt' ≤ 0) := by omega
    unfold stepText
    rw [if_neg (not_le.mpr ha), if_neg (not_le.mpr ha')]
    simp only [hno h1, hno h2, h3, or_false]
    rw [← sanitizeInner_eq_iff hx]
    constructor
    · intro h
      have hlist := congrArg String.toList h
      rw [toList_later, toList_later] at hlist
      obtain ⟨hbase, hnum⟩ := join_inj (underscore_notMem_attempt attempt)
        (underscore_notMem_attempt attempt') hlist
      exact ⟨Int.repr_inj.mp (String.toList_injective (List.cons.inj hnum).2),
        String.toList_injective hbase⟩
    · rintro ⟨rfl, h⟩
      unfold sanitizeJob
      rw [h]

/-! ## Ids of their own -/

theorem not_runsOn_self {a b b' : String} : ¬ RunsOn a b a b' := by
  rintro ⟨u, hu, -⟩
  have hlen := congrArg List.length hu
  simp at hlen

/-- What the last two cases rule out, they do not give. -/
theorem or_or_imp_iff {p q q' r : Prop} (hq : q → ¬ r) (hq' : q' → ¬ r) :
    (p ∨ q ∨ q' → r) ↔ (p → r) ∧ ¬ q ∧ ¬ q' := by
  rw [or_imp, or_imp]
  exact and_congr_right' (and_congr ⟨fun h hc => hq hc (h hc), fun h hc => absurd hc h⟩
    ⟨fun h hc => hq' hc (h hc), fun h hc => absurd hc h⟩)

theorem schedule_distinct_iff (hx : shortHash sha256 x = shortHash sha256 y → x = y) :
    (schedule sha256 x = schedule sha256 y → x = y) ↔ ¬ Clash sha256 true x y := by
  unfold schedule sanitize
  rw [Ref.mk.injEq, sanitizeInner_eq_iff hx, ← alike_imp_iff]
  exact ⟨fun h hxy => h ⟨rfl, hxy⟩, fun h hxy => h hxy.2⟩

theorem scheduleKey_distinct_iff (hx : shortHash sha256 x = shortHash sha256 y → x = y)
    (hk : shortHash sha256 k = shortHash sha256 k' → k = k') :
    (scheduleKey sha256 x k = scheduleKey sha256 y k' → (x, k) = (y, k')) ↔
      (k = k' → ¬ Clash sha256 true x y) := by
  rw [scheduleKey_eq_iff hx hk, ← alike_imp_iff, Prod.mk.injEq]
  exact ⟨fun h hkey hxy => (h ⟨hxy, hkey⟩).1, fun h hxy => ⟨h hxy.2 hxy.1, hxy.2⟩⟩

theorem runKey_distinct_iff {ms ms' : Int} (hx : shortHash sha256 x = shortHash sha256 y → x = y)
    (hk : shortHash sha256 k = shortHash sha256 k' → k = k') :
    (runKey sha256 x ms k = runKey sha256 y ms' k' → (x, ms, k) = (y, ms', k')) ↔
      (ms = ms' → k = k' → ¬ Clash sha256 true x y) := by
  rw [runKey_eq_iff hx hk, ← alike_imp_iff, Prod.mk.injEq, Prod.mk.injEq]
  exact ⟨fun h hms hkey hxy => (h ⟨hxy, hms, hkey⟩).1, fun h hxy => ⟨h hxy.2.1 hxy.2.2 hxy.1, hxy.2⟩⟩

theorem rerunKey_distinct_iff {r r' : String} {ms ms' : Int}
    (hx : shortHash sha256 x = shortHash sha256 y → x = y)
    (hr : shortHash sha256 ("rerun:" ++ r) = shortHash sha256 ("rerun:" ++ r') →
      "rerun:" ++ r = "rerun:" ++ r') :
    (rerunKey sha256 x ms r = rerunKey sha256 y ms' r' → (x, ms, r) = (y, ms', r')) ↔
      (ms = ms' → r = r' → ¬ Clash sha256 true x y) := by
  have h := @runKey_distinct_iff sha256 x y _ _ ms ms' hx hr
  simp only [Prod.mk.injEq, String.append_right_inj] at h ⊢
  exact h

theorem stepRun_distinct_iff {rk rk' : String}
    (hx : shortHash sha256 x = shortHash sha256 y → x = y) :
    (stepRun sha256 rk x = stepRun sha256 rk' y → (rk, x) = (rk', y)) ↔
      ((rk = rk' → ¬ Clash sha256 true x y) ∧
        ¬ RunsOn rk (sanitize sha256 x) rk' (sanitize sha256 y) ∧
        ¬ RunsOn rk' (sanitize sha256 y) rk (sanitize sha256 x)) := by
  rw [stepRun_eq_iff hx, ← alike_imp_iff, Prod.mk.injEq,
    or_or_imp_iff (fun hon he => not_runsOn_self (he.1 ▸ hon))
      fun hon he => not_runsOn_self (he.1 ▸ hon)]
  exact and_congr_left' ⟨fun h hrk hxy => (h ⟨hrk, hxy⟩).2, fun h hs => ⟨hs.1, h hs.1 hs.2⟩⟩

theorem rollup_distinct_iff {scope scope' b b' : String}
    (hs : shortHash sha256 scope = shortHash sha256 scope' → scope = scope')
    (hx : shortHash sha256 x = shortHash sha256 y → x = y) :
    (rollup sha256 scope x b = rollup sha256 scope' y b' → (scope, x, b) = (scope', y, b')) ↔
      (stamp b = stamp b' →
        (Alike sha256 true scope scope' → Alike sha256 true x y →
          (scope, x, b) = (scope', y, b')) ∧
        ¬ RunsOn (sanitize sha256 scope) (sanitize sha256 x) (sanitize sha256 scope')
          (sanitize sha256 y) ∧
        ¬ RunsOn (sanitize sha256 scope') (sanitize sha256 y) (sanitize sha256 scope)
          (sanitize sha256 x)) := by
  rw [rollup_eq_iff hs hx, and_imp, or_or_imp_iff, and_imp]
  · exact fun hon he => not_runsOn_self ((Prod.mk.inj he).1 ▸ hon)
  · exact fun hon he => not_runsOn_self ((Prod.mk.inj he).1 ▸ hon)

theorem stepJobAttempt_distinct_iff {table rk : String} {a a' : Int}
    (hx : shortHash sha256 x = shortHash sha256 y → x = y) :
    (stepJobAttempt sha256 table rk x a = stepJobAttempt sha256 table rk y a' →
      (x, a) = (y, a')) ↔
      ((a = a' → ¬ Clash sha256 false x y) ∧
        (a ≠ a' → a ≤ 0 → a' ≤ 0 → ¬ Alike sha256 false x y) ∧
        ¬ NamedAfter sha256 x a y a' ∧ ¬ NamedAfter sha256 y a' x a) := by
  rw [stepJobAttempt_eq, stepJobAttempt_eq, Ref.mk.injEq, String.append_right_inj,
    stepText_eq_iff hx, ← alike_imp_iff, Prod.mk.injEq, and_iff_right rfl, or_or_imp_iff]
  · refine (and_congr_left' ?_).trans and_assoc
    constructor
    · exact fun h => ⟨fun ha hxy => (h ⟨.inl ha, hxy⟩).1,
        fun hne ha ha' hxy => hne (h ⟨.inr ⟨ha, ha'⟩, hxy⟩).2⟩
    · rintro ⟨h, hfirst⟩ ⟨ha, hxy⟩
      by_cases he : a = a'
      · exact ⟨h he hxy, he⟩
      · obtain ⟨ha, ha'⟩ := ha.resolve_left he
        exact absurd hxy (hfirst he ha ha')
  · rintro ⟨hfirst, hlate, -⟩ ⟨-, he⟩
    omega
  · rintro ⟨hfirst, hlate, -⟩ ⟨-, he⟩
    omega

end

/-- Which arguments have an id of their own: names that do not clash, unless the ids differ in
another part; joins that do not run on; and first attempts at steps that are not named after
another step's later attempt. -/
theorem ids_distinct_iff (sha256 : String → Vector UInt8 32) (S : Set String)
    (hinj : Set.InjOn (shortHash sha256) S) :
    (∀ x ∈ S, ∀ y ∈ S,
      (schedule sha256 x = schedule sha256 y → x = y) ↔ ¬ Clash sha256 true x y) ∧
    (∀ x ∈ S, ∀ y ∈ S, ∀ k ∈ S, ∀ k' ∈ S,
      (scheduleKey sha256 x k = scheduleKey sha256 y k' → (x, k) = (y, k')) ↔
        (k = k' → ¬ Clash sha256 true x y)) ∧
    (∀ x ∈ S, ∀ y ∈ S, ∀ k ∈ S, ∀ k' ∈ S, ∀ ms ms' : Int,
      (runKey sha256 x ms k = runKey sha256 y ms' k' → (x, ms, k) = (y, ms', k')) ↔
        (ms = ms' → k = k' → ¬ Clash sha256 true x y)) ∧
    (∀ x ∈ S, ∀ y ∈ S, ∀ r r' : String, "rerun:" ++ r ∈ S → "rerun:" ++ r' ∈ S → ∀ ms ms' : Int,
      (rerunKey sha256 x ms r = rerunKey sha256 y ms' r' → (x, ms, r) = (y, ms', r')) ↔
        (ms = ms' → r = r' → ¬ Clash sha256 true x y)) ∧
    (∀ rk rk' : String, ∀ x ∈ S, ∀ y ∈ S,
      (stepRun sha256 rk x = stepRun sha256 rk' y → (rk, x) = (rk', y)) ↔
        ((rk = rk' → ¬ Clash sha256 true x y) ∧
          ¬ RunsOn rk (sanitize sha256 x) rk' (sanitize sha256 y) ∧
          ¬ RunsOn rk' (sanitize sha256 y) rk (sanitize sha256 x))) ∧
    (∀ scope ∈ S, ∀ scope' ∈ S, ∀ x ∈ S, ∀ y ∈ S, ∀ b b' : String,
      (rollup sha256 scope x b = rollup sha256 scope' y b' → (scope, x, b) = (scope', y, b')) ↔
        (stamp b = stamp b' →
          (Alike sha256 true scope scope' → Alike sha256 true x y →
            (scope, x, b) = (scope', y, b')) ∧
          ¬ RunsOn (sanitize sha256 scope) (sanitize sha256 x) (sanitize sha256 scope')
            (sanitize sha256 y) ∧
          ¬ RunsOn (sanitize sha256 scope') (sanitize sha256 y) (sanitize sha256 scope)
            (sanitize sha256 x))) ∧
    (∀ table rk : String, ∀ x ∈ S, ∀ y ∈ S, ∀ a a' : Int,
      (stepJobAttempt sha256 table rk x a = stepJobAttempt sha256 table rk y a' →
        (x, a) = (y, a')) ↔
        ((a = a' → ¬ Clash sha256 false x y) ∧
          (a ≠ a' → a ≤ 0 → a' ≤ 0 → ¬ Alike sha256 false x y) ∧
          ¬ NamedAfter sha256 x a y a' ∧ ¬ NamedAfter sha256 y a' x a)) := by
  refine ⟨?_, ?_, ?_, ?_, ?_, ?_, ?_⟩
  · exact fun x hx y hy => schedule_distinct_iff (hinj hx hy)
  · exact fun x hx y hy k hk k' hk' => scheduleKey_distinct_iff (hinj hx hy) (hinj hk hk')
  · exact fun x hx y hy k hk k' hk' ms ms' => runKey_distinct_iff (hinj hx hy) (hinj hk hk')
  · exact fun x hx y hy r r' hr hr' ms ms' => rerunKey_distinct_iff (hinj hx hy) (hinj hr hr')
  · exact fun rk rk' x hx y hy => stepRun_distinct_iff (hinj hx hy)
  · exact fun scope hs scope' hs' x hx y hy b b' => rollup_distinct_iff (hinj hs hs') (hinj hx hy)
  · exact fun table rk x hx y hy a a' => stepJobAttempt_distinct_iff (hinj hx hy)

/-! ## Two arguments with one id -/

/-- The bytes of a digest. -/
def bytesOf (digest : Nat) : Vector UInt8 32 :=
  Vector.ofFn fun i => UInt8.ofNat (digest / 256 ^ (31 - i.val))

/-- SHA-256 of a few names. -/
def digests : String → Vector UInt8 32
  | "A" => bytesOf 0x559aead08264d5795d3909718cdd05abd49572e84fe55590eef31a88a08fdffd
  | "a_559aead08264" => bytesOf 0x44bed76a9041bfa9790093a3c49c85cb624c68ef80f60e8b6714056a4157ef80
  | "game-sync" => bytesOf 0x3a372542379b9a626ed4d582cf7f26dfcf869403a2b6fbd83634c61cb6ee405d
  | "a-b" => bytesOf 0xd44362d67d921091c7b9674d752e9e23c1f9ec8a4f0b82741bf01364eb97c830
  | "a_b" => bytesOf 0x648fa9b31bc7ff7eb914e7a7180f07e0df0f8467839b1af8902da1d0bead03a2
  | "x" => bytesOf 0x2d711642b726b04401627ca9fbac32f5c8530fb1903cc4db02258717921a4881
  | "x_r1" => bytesOf 0xb11e40ae357f6d3566324527edd91bd0bbb4824b4ee7c57f6bb0f3909b1d7348
  | _ => bytesOf 0xe3b0c44298fc1c149afbf4c8996fb92427ae41e4649b934ca495991b7852b855

theorem injOn_pair {x y : String} (h : shortHash digests x ≠ shortHash digests y) :
    Set.InjOn (shortHash digests) {x, y} := by
  intro s hs t ht heq
  rcases hs with rfl | rfl <;> rcases ht with rfl | rfl
  · rfl
  · exact absurd heq h
  · exact absurd heq.symm h
  · rfl

/-- Names that do not clash. -/
theorem ids_distinct_two : Set.InjOn (shortHash digests) {"A", "game-sync"} ∧
    (schedule digests "A" = schedule digests "game-sync" → "A" = "game-sync") ∧
    (stepJobAttempt digests "job" "run" "A" 1 = stepJobAttempt digests "job" "run" "game-sync" 2 →
      ("A", (1 : Int)) = ("game-sync", 2)) := by
  have hinj : Set.InjOn (shortHash digests) {"A", "game-sync"} := injOn_pair (by decide +kernel)
  obtain ⟨hschedule, -, -, -, -, -, hjob⟩ := ids_distinct_iff digests {"A", "game-sync"} hinj
  refine ⟨hinj, ?_, ?_⟩
  · exact (hschedule "A" (.inl rfl) "game-sync" (.inr rfl)).mpr (by decide +kernel)
  · refine (hjob "job" "run" "A" (.inl rfl) "game-sync" (.inr rfl) 1 2).mpr ?_
    exact ⟨by decide, fun _ h => absurd h (by decide), fun h => absurd h.1 (by decide),
      fun h => absurd h.1 (by decide)⟩

/-- A schedule that is named as another is marked has the other's row, a step has another's job if
their names differ in a hyphen, and a step that is named as another's retry has the retry's job. -/
theorem ids_collide :
    ¬ (∀ S : Set String, Set.InjOn (shortHash digests) S → ∀ x ∈ S, ∀ y ∈ S,
      schedule digests x = schedule digests y → x = y) ∧
    ¬ (∀ S : Set String, Set.InjOn (shortHash digests) S → ∀ x ∈ S, ∀ y ∈ S,
      stepJob digests "job" "run" x = stepJob digests "job" "run" y → x = y) ∧
    ¬ (∀ S : Set String, Set.InjOn (shortHash digests) S → ∀ x ∈ S, ∀ y ∈ S, ∀ a a' : Int,
      stepJobAttempt digests "job" "run" x a = stepJobAttempt digests "job" "run" y a' →
        (x, a) = (y, a')) := by
  refine ⟨fun h => ?_, fun h => ?_, fun h => ?_⟩
  · have hsame := h {"A", "a_559aead08264"} (injOn_pair (by decide +kernel)) "A" (.inl rfl)
      "a_559aead08264" (.inr rfl) (by decide +kernel)
    exact absurd hsame (by decide)
  · have hsame := h {"a-b", "a_b"} (injOn_pair (by decide +kernel)) "a-b" (.inl rfl) "a_b"
      (.inr rfl) (by decide +kernel)
    exact absurd hsame (by decide)
  · have hsame := h {"x_r1", "x"} (injOn_pair (by decide +kernel)) "x_r1" (.inl rfl) "x" (.inr rfl)
      0 1 (by decide +kernel)
    exact absurd hsame (by decide)

end Sp00ky.ScheduleCore.Ids
