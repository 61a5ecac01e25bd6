/-
  Byte strings: little-endian fields, variable-length integers, text and slices.

  `leBytes w n` is the `w`-byte field of `n` and `leNat` reads one back. `readVarint` reads
  what `writeVarint` wrote whatever follows it (`readVarint_writeVarint`), and what it reads
  does not depend on the bytes it did not consume (`readVarint_append`,
  `readVarint_take`). `slice` is a bounds-checked range: it is known by what stands before
  and after it (`slice_eq_some_iff`), so it is stable under appending.
-/
import Mathlib.Data.Nat.Bitwise
import Mathlib.Tactic.Ring

namespace Sp00ky.Lib

abbrev Bytes := List UInt8

/-! ## Little-endian fields -/

/-- The `w` low bytes of `n`, least significant first. -/
def leBytes : Nat → Nat → Bytes
  | 0, _ => []
  | w + 1, n => UInt8.ofNat (n % 256) :: leBytes w (n / 256)

/-- The number a little-endian field holds. -/
def leNat : Bytes → Nat
  | [] => 0
  | b :: bs => b.toNat + 256 * leNat bs

@[simp] theorem length_leBytes (w n : Nat) : (leBytes w n).length = w := by
  induction w generalizing n with
  | zero => rfl
  | succ w ih => simp [leBytes, ih]

theorem leNat_leBytes (w n : Nat) : leNat (leBytes w n) = n % 256 ^ w := by
  induction w generalizing n with
  | zero => simp [leBytes, leNat, Nat.mod_one]
  | succ w ih =>
    have hbyte : (UInt8.ofNat (n % 256)).toNat = n % 256 := by
      rw [UInt8.toNat_ofNat']
      omega
    rw [leBytes, leNat, ih, hbyte, pow_succ', Nat.mod_mul]

theorem leNat_leBytes_of_lt {w n : Nat} (h : n < 256 ^ w) : leNat (leBytes w n) = n := by
  rw [leNat_leBytes, Nat.mod_eq_of_lt h]

theorem leNat_lt (bs : Bytes) : leNat bs < 256 ^ bs.length := by
  induction bs with
  | nil => simp [leNat]
  | cons b bs ih =>
    have hb : b.toNat < 256 := b.toNat_lt
    rw [leNat, List.length_cons, pow_succ]
    omega

theorem leBytes_leNat (bs : Bytes) : leBytes bs.length (leNat bs) = bs := by
  induction bs with
  | nil => rfl
  | cons b bs ih =>
    have hb : b.toNat < 256 := b.toNat_lt
    rw [List.length_cons, leBytes, leNat, Nat.add_mul_mod_self_left, Nat.mod_eq_of_lt hb,
      UInt8.ofNat_toNat, Nat.add_mul_div_left _ _ (by decide), Nat.div_eq_of_lt hb, Nat.zero_add, ih]

/-! ## Slices -/

/-- `bytes.get(start..stop)`. -/
def slice (bs : Bytes) (start stop : Nat) : Option Bytes :=
  if start ≤ stop ∧ stop ≤ bs.length then some ((bs.drop start).take (stop - start)) else none

variable {n start stop v : Nat} {bs x : Bytes}

theorem slice_eq_some_iff :
    slice bs start stop = some x ↔
      ∃ before after, bs = before ++ x ++ after ∧ before.length = start ∧
        start + x.length = stop := by
  constructor
  · intro h
    unfold slice at h
    split at h
    next hle =>
      obtain ⟨h1, h2⟩ := hle
      cases h
      refine ⟨bs.take start, bs.drop stop, ?_, ?_, ?_⟩
      · have hrest : bs.drop stop = (bs.drop start).drop (stop - start) := by
          rw [List.drop_drop, Nat.add_sub_cancel' h1]
        rw [List.append_assoc, hrest, List.take_append_drop, List.take_append_drop]
      · rw [List.length_take]
        omega
      · rw [List.length_take, List.length_drop]
        omega
    next => cases h
  · rintro ⟨before, after, rfl, rfl, rfl⟩
    have hle : before.length ≤ before.length + x.length ∧
        before.length + x.length ≤ (before ++ x ++ after).length := by
      simp only [List.length_append]
      omega
    unfold slice
    rw [if_pos hle, List.append_assoc, List.drop_left, Nat.add_sub_cancel_left, List.take_left]

theorem slice_mid (before x after : Bytes) :
    slice (before ++ x ++ after) before.length (before.length + x.length) = some x :=
  slice_eq_some_iff.mpr ⟨before, after, rfl, rfl, rfl⟩

theorem slice_append (h : slice bs start stop = some x)
    (more : Bytes) : slice (bs ++ more) start stop = some x := by
  obtain ⟨before, after, rfl, h1, h2⟩ := slice_eq_some_iff.mp h
  exact slice_eq_some_iff.mpr ⟨before, after ++ more, by simp, h1, h2⟩

theorem slice_isSome (bs : Bytes) (h1 : start ≤ stop) (h2 : stop ≤ bs.length) :
    ∃ x, slice bs start stop = some x := by
  unfold slice
  rw [if_pos ⟨h1, h2⟩]
  exact ⟨_, rfl⟩

/-- A slice of a slice. -/
theorem slice_slice {bs x y : Bytes} {s e s' e' : Nat} (h : slice bs s e = some x)
    (h' : slice x s' e' = some y) : slice bs (s + s') (s + e') = some y := by
  obtain ⟨before, after, rfl, rfl, -⟩ := slice_eq_some_iff.mp h
  obtain ⟨before', after', rfl, rfl, rfl⟩ := slice_eq_some_iff.mp h'
  refine slice_eq_some_iff.mpr ⟨before ++ before', after' ++ after, by simp, ?_, ?_⟩
  · rw [List.length_append]
  · omega

/-! ## Variable-length integers -/

/-- Seven bits a byte, at most `k` bytes, the high bit set on all but the last. -/
def writeVarintUpTo : Nat → Nat → Bytes
  | 0, _ => []
  | k + 1, v =>
    if v / 128 = 0 then [UInt8.ofNat (v % 128)]
    else UInt8.ofNat (v % 128 + 128) :: writeVarintUpTo k (v / 128)

/-- `write_varint`: ten bytes hold any `u64`. -/
def writeVarint (v : Nat) : Bytes := writeVarintUpTo 10 v

/-- The loop of `read_varint`, from byte `i` on. -/
def readVarintFrom : Bytes → Nat → Nat → Nat → Option (Nat × Nat)
  | [], _, _, _ => none
  | b :: bs, i, shift, result =>
    if 64 ≤ shift then none
    else
      let result := result ||| ((b.toNat % 128) <<< shift) % 2 ^ 64
      if b.toNat < 128 then some (result, i + 1) else readVarintFrom bs (i + 1) (shift + 7) result

/-- `read_varint`: the value and the number of bytes consumed. -/
def readVarint (bs : Bytes) : Option (Nat × Nat) := readVarintFrom bs 0 0 0

theorem readVarintFrom_append {i shift result v n : Nat}
    (h : readVarintFrom bs i shift result = some (v, n)) (more : Bytes) :
    readVarintFrom (bs ++ more) i shift result = some (v, n) := by
  induction bs generalizing i shift result with
  | nil => cases h
  | cons b bs ih =>
    rw [List.cons_append]
    unfold readVarintFrom at h ⊢
    split at h
    next => cases h
    next hs =>
      rw [if_neg hs]
      simp only at h ⊢
      split at h
      next hb => rw [if_pos hb, h]
      next hb => rw [if_neg hb, ih h]

theorem readVarint_append (h : readVarint bs = some (v, n))
    (more : Bytes) : readVarint (bs ++ more) = some (v, n) := readVarintFrom_append h more

theorem readVarintFrom_take {i shift result v n : Nat}
    (h : readVarintFrom bs i shift result = some (v, n)) :
    i < n ∧ n ≤ i + bs.length ∧
      readVarintFrom (bs.take (n - i)) i shift result = some (v, n) := by
  induction bs generalizing i shift result with
  | nil => cases h
  | cons b bs ih =>
    unfold readVarintFrom at h
    split at h
    next => cases h
    next hs =>
      simp only at h
      split at h
      next hb =>
        cases h
        refine ⟨Nat.lt_succ_self i, ?_, ?_⟩
        · rw [List.length_cons]
          omega
        · rw [Nat.add_sub_cancel_left, List.take_succ_cons]
          unfold readVarintFrom
          rw [if_neg hs]
          simp only
          rw [if_pos hb]
      next hb =>
        obtain ⟨h1, h2, h3⟩ := ih h
        refine ⟨by omega, ?_, ?_⟩
        · rw [List.length_cons]
          omega
        · have hn : n - i = (n - (i + 1)) + 1 := by omega
          rw [hn, List.take_succ_cons]
          unfold readVarintFrom
          rw [if_neg hs]
          simp only
          rw [if_neg hb, h3]

/-- A varint is read from the bytes it consumes. -/
theorem readVarint_take (h : readVarint bs = some (v, n)) :
    0 < n ∧ n ≤ bs.length ∧ readVarint (bs.take n) = some (v, n) := by
  obtain ⟨h1, h2, h3⟩ := readVarintFrom_take h
  exact ⟨h1, by omega, h3⟩

theorem readVarintFrom_write (k i shift result v : Nat) (rest : Bytes)
    (hk : v < 128 ^ k) (hres : result < 2 ^ shift) (hbits : v * 2 ^ shift < 2 ^ 64)
    (hshift : shift + 7 * k < 64 + 7) :
    readVarintFrom (writeVarintUpTo k v ++ rest) i shift result =
      if k = 0 then readVarintFrom rest i shift result
      else some (v * 2 ^ shift + result, i + (writeVarintUpTo k v).length) := by
  induction k generalizing i shift result v with
  | zero => rfl
  | succ k ih =>
    have hpow : 0 < 2 ^ shift := Nat.two_pow_pos shift
    have hs : ¬ 64 ≤ shift := by omega
    have hlow : v % 128 * 2 ^ shift < 2 ^ 64 :=
      lt_of_le_of_lt (Nat.mul_le_mul_right _ (Nat.mod_le v 128)) hbits
    have hor : result ||| v % 128 * 2 ^ shift = v % 128 * 2 ^ shift + result := by
      rw [Nat.or_comm, Nat.mul_comm, Nat.two_pow_add_eq_or_of_lt hres]
    rw [if_neg (Nat.succ_ne_zero k), writeVarintUpTo]
    by_cases hv : v / 128 = 0
    · have hlt : v % 128 = v := Nat.mod_eq_of_lt (by omega)
      have hbyte : (UInt8.ofNat (v % 128)).toNat = v := by
        rw [UInt8.toNat_ofNat']
        omega
      rw [if_pos hv, List.cons_append, readVarintFrom, if_neg hs]
      simp only
      rw [hbyte, hlt, Nat.shiftLeft_eq, if_pos (by omega), Nat.mod_eq_of_lt hbits]
      rw [hlt] at hor
      rw [hor]
      rfl
    · have hbyte : (UInt8.ofNat (v % 128 + 128)).toNat = v % 128 + 128 := by
        rw [UInt8.toNat_ofNat']
        omega
      have hmod : (v % 128 + 128) % 128 = v % 128 := by omega
      have hdiv : v / 128 * 2 ^ (shift + 7) + (v % 128 * 2 ^ shift + result)
          = v * 2 ^ shift + result := by
        have hsplit : v = 128 * (v / 128) + v % 128 := (Nat.div_add_mod v 128).symm
        have h7 : (2 : Nat) ^ (shift + 7) = 128 * 2 ^ shift := by
          rw [pow_add]
          ring
        conv_rhs => rw [hsplit]
        rw [h7]
        ring
      rw [if_neg hv, List.cons_append, readVarintFrom, if_neg hs]
      simp only
      rw [hbyte, if_neg (by omega), hmod, Nat.shiftLeft_eq, Nat.mod_eq_of_lt hlow, hor]
      have hk' : v / 128 < 128 ^ k := by
        rw [Nat.div_lt_iff_lt_mul (by decide)]
        rw [pow_succ] at hk
        exact hk
      have hres' : v % 128 * 2 ^ shift + result < 2 ^ (shift + 7) := by
        have h7 : (2 : Nat) ^ (shift + 7) = 128 * 2 ^ shift := by
          rw [pow_add]
          ring
        have hm : v % 128 + 1 ≤ 128 := by omega
        have := Nat.mul_le_mul_right (2 ^ shift) hm
        rw [Nat.add_mul, Nat.one_mul] at this
        omega
      have hbits' : v / 128 * 2 ^ (shift + 7) < 2 ^ 64 := by
        have := hdiv
        omega
      have hk0 : k ≠ 0 := by
        rintro rfl
        rw [pow_zero] at hk'
        omega
      rw [ih (i + 1) (shift + 7) _ _ hk' hres' hbits' (by omega), if_neg hk0, hdiv,
        List.length_cons]
      congr 2
      omega

/-- `read_varint` reads what `write_varint` wrote, whatever follows. -/
theorem readVarint_writeVarint (hv : v < 2 ^ 64) (rest : Bytes) :
    readVarint (writeVarint v ++ rest) = some (v, (writeVarint v).length) := by
  have h128 : v < 128 ^ 10 := lt_trans hv (by decide)
  have h := readVarintFrom_write 10 0 0 0 v rest h128 (by norm_num) (by simpa using hv) (by norm_num)
  unfold readVarint writeVarint
  rw [h]
  simp

/-! ## Text -/

/-- `str::as_bytes`. -/
def strBytes (s : String) : Bytes := s.toByteArray.data.toList

/-- `str::from_utf8`. -/
def strOf (bs : Bytes) : Option String := String.fromUTF8? ⟨bs.toArray⟩

@[simp] theorem strOf_strBytes (s : String) : strOf (strBytes s) = some s := by
  unfold strOf strBytes String.fromUTF8?
  rw [dif_pos (by simpa using s.isValidUTF8)]
  rfl

theorem strBytes_strOf {s : String} (h : strOf bs = some s) : strBytes s = bs := by
  unfold strOf String.fromUTF8? at h
  split at h
  next hv =>
    cases h
    rfl
  next => cases h

end Sp00ky.Lib
