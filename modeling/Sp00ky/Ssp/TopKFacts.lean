/-
  The window operator keeps the smallest records.

  `TopK.Holds t flags f` relates the operator to its input set, a partial map `f`
  from keys to sort keys: the buffer is the increasing list of the input entries
  below the boundary, and all of them when there is no boundary. Every change of
  the input keeps it, whatever the boundary is (`stepKey_holds`), so a window that
  does not ask for a rebuild is the window of the sorted input
  (`currentWindow_eq`).

  Sort keys hold no floats: then entries of one `ORDER BY` are totally ordered
  (`entry_lawful`).
-/
import Mathlib.Logic.Function.Basic
import Sp00ky.Ssp.StepFacts

namespace Sp00ky.Ssp

open Std Lib
open Function (update update_of_ne update_self)
open ExtTreeMap (getElem?_erase getElem?_filter' getElem?_insert mem_keys)

/-! ## The order of entries -/

/-- A scalar that is neither a float nor a range bound. -/
def Scalar.Exact : Scalar → Prop
  | .float _ => False
  | .top => False
  | _ => True

theorem scalar_lawful : LawfulOn Scalar.cmp Scalar.Exact where
  refl := by
    intro a ha
    cases a <;> simp_all [Scalar.cmp, Scalar.Exact]
  eq := by
    intro a b ha hb h
    cases a <;> cases b <;> simp_all [Scalar.cmp, Scalar.rank, Scalar.Exact]
  swap := by
    intro a b ha hb
    cases a <;> cases b <;> simp_all [Scalar.cmp, Scalar.rank, Scalar.Exact] <;>
      exact OrientedCmp.eq_swap
  trans := by
    intro a b c ha hb hc hab hbc
    cases a <;> cases b <;> cases c <;>
      simp_all +decide [Scalar.cmp, Scalar.rank, Scalar.Exact] <;>
      exact TransCmp.lt_trans hab hbc

/-- A sort key of exact scalars with the given directions. -/
def OkKey : List Bool → SortKey → Prop
  | [], [] => True
  | d :: ds, v :: vs => v.descending = d ∧ v.scalar.Exact ∧ OkKey ds vs
  | _, _ => False

theorem sortable_lawful (d : Bool) :
    LawfulOn SortableValue.cmp fun v => v.descending = d ∧ v.scalar.Exact where
  refl := by
    rintro ⟨s, _⟩ ⟨rfl, hs⟩
    simp only [SortableValue.cmp, scalar_lawful.refl s hs]
    split <;> rfl
  eq := by
    rintro ⟨s, _⟩ ⟨s', _⟩ ⟨rfl, hs⟩ ⟨hd, hs'⟩ h
    simp only at hd
    subst hd
    have : s.cmp s' = .eq := by
      unfold SortableValue.cmp at h
      dsimp only at h
      split at h
      · simpa using h
      · exact h
    rw [scalar_lawful.eq s s' hs hs' this]
  swap := by
    rintro ⟨s, _⟩ ⟨s', _⟩ ⟨rfl, hs⟩ ⟨hd, hs'⟩
    simp only at hd
    subst hd
    simp only [SortableValue.cmp, scalar_lawful.swap s s' hs hs']
    split <;> rfl
  trans := by
    rintro ⟨a, _⟩ ⟨b, _⟩ ⟨c, _⟩ ⟨rfl, ha⟩ ⟨hb', hb⟩ ⟨hc', hc⟩ hab hbc
    simp only at hb' hc'
    subst hb' hc'
    unfold SortableValue.cmp at hab hbc ⊢
    dsimp only at hab hbc ⊢
    split
    · next hd =>
      rw [if_pos hd] at hab hbc
      have h1 : b.cmp a = .lt := by rw [scalar_lawful.swap a b ha hb]; exact hab
      have h2 : c.cmp b = .lt := by rw [scalar_lawful.swap b c hb hc]; exact hbc
      rw [← scalar_lawful.swap a c ha hc]
      exact scalar_lawful.trans c b a hc hb ha h2 h1
    · next hd =>
      rw [if_neg hd] at hab hbc
      exact scalar_lawful.trans a b c ha hb hc hab hbc

theorem sortKey_lawful (flags : List Bool) : LawfulOn (lexCmp SortableValue.cmp) (OkKey flags) := by
  induction flags with
  | nil =>
    have hnil : ∀ a, OkKey [] a → a = [] := by
      intro a ha
      cases a with
      | nil => rfl
      | cons v vs => exact ha.elim
    refine ⟨?_, ?_, ?_, ?_⟩
    · intro a ha
      rw [hnil a ha]
      rfl
    · intro a b ha hb _
      rw [hnil a ha, hnil b hb]
    · intro a b ha hb
      rw [hnil a ha, hnil b hb]
      rfl
    · intro a b c ha hb _ hab
      rw [hnil a ha, hnil b hb] at hab
      cases hab
  | cons d ds ih =>
    have hcons : ∀ a, OkKey (d :: ds) a → ∃ v vs, a = v :: vs ∧
        (v.descending = d ∧ v.scalar.Exact) ∧ OkKey ds vs := by
      intro a ha
      cases a with
      | nil => exact ha.elim
      | cons v vs => exact ⟨v, vs, rfl, ⟨ha.1, ha.2.1⟩, ha.2.2⟩
    have hv := sortable_lawful d
    refine ⟨?_, ?_, ?_, ?_⟩
    · intro a ha
      obtain ⟨v, vs, rfl, h1, h2⟩ := hcons a ha
      simp only [lexCmp, hv.refl v h1, ih.refl vs h2]
    · intro a b ha hb h
      obtain ⟨v, vs, rfl, h1, h2⟩ := hcons a ha
      obtain ⟨w, ws, rfl, h3, h4⟩ := hcons b hb
      cases hc : SortableValue.cmp v w with
      | eq =>
        simp only [lexCmp, hc] at h
        rw [hv.eq v w h1 h3 hc, ih.eq vs ws h2 h4 h]
      | lt | gt => simp [lexCmp, hc] at h
    · intro a b ha hb
      obtain ⟨v, vs, rfl, h1, h2⟩ := hcons a ha
      obtain ⟨w, ws, rfl, h3, h4⟩ := hcons b hb
      have hsw := hv.swap v w h1 h3
      cases hc : SortableValue.cmp v w <;> rw [hc] at hsw <;> simp [lexCmp, hc, hsw]
      exact ih.swap vs ws h2 h4
    · intro a b c ha hb hc hab hbc
      obtain ⟨u, us, rfl, h1, h2⟩ := hcons a ha
      obtain ⟨v, vs, rfl, h3, h4⟩ := hcons b hb
      obtain ⟨w, ws, rfl, h5, h6⟩ := hcons c hc
      simp only [lexCmp] at hab hbc ⊢
      cases huv : SortableValue.cmp u v with
      | gt => simp [huv] at hab
      | eq =>
        obtain rfl := hv.eq u v h1 h3 huv
        simp only [huv] at hab
        cases huw : SortableValue.cmp u w with
        | gt => simp [huw] at hbc
        | lt => rfl
        | eq =>
          simp only [huw] at hbc ⊢
          exact ih.trans us vs ws h2 h4 h6 hab hbc
      | lt =>
        cases hvw : SortableValue.cmp v w with
        | gt => simp [hvw] at hbc
        | eq =>
          obtain rfl := hv.eq v w h3 h5 hvw
          rw [huv]
        | lt => rw [hv.trans u v w h1 h3 h5 huv hvw]

/-- Entries of one `ORDER BY` without floats are totally ordered. -/
theorem entry_lawful (flags : List Bool) : LawfulOn Entry.cmp fun e => OkKey flags e.1 := by
  have hk := sortKey_lawful flags
  refine ⟨?_, ?_, ?_, ?_⟩
  · intro a ha
    simp only [Entry.cmp, hk.refl a.1 ha, ReflCmp.compare_self]
  · intro a b ha hb h
    unfold Entry.cmp at h
    split at h
    · next heq => exact Prod.ext (hk.eq _ _ ha hb heq) (LawfulEqCmp.compare_eq_iff_eq.mp h)
    · next o hno => exact absurd h hno
  · intro a b ha hb
    have hsw := hk.swap a.1 b.1 ha hb
    unfold Entry.cmp
    cases hc : lexCmp SortableValue.cmp a.1 b.1 <;> rw [hc] at hsw <;> simp [hsw]
    exact OrientedCmp.eq_swap
  · intro a b c ha hb hc hab hbc
    unfold Entry.cmp at hab hbc ⊢
    cases h1 : lexCmp SortableValue.cmp a.1 b.1 with
    | gt => simp [h1] at hab
    | eq =>
      have he := hk.eq _ _ ha hb h1
      simp only [h1] at hab
      rw [he]
      cases h2 : lexCmp SortableValue.cmp b.1 c.1 with
      | gt => simp [h2] at hbc
      | lt => rfl
      | eq =>
        simp only [h2] at hbc ⊢
        exact TransCmp.lt_trans hab hbc
    | lt =>
      cases h2 : lexCmp SortableValue.cmp b.1 c.1 with
      | gt => simp [h2] at hbc
      | eq => rw [← hk.eq _ _ hb hc h2, h1]
      | lt => rw [hk.trans _ _ _ ha hb hc h1 h2]

/-! ## The buffer -/

/-- The operator against its input set: the buffer lists the entries below the boundary. -/
structure TopK.Holds (t : TopK) (flags : List Bool) (f : String → Option SortKey) : Prop where
  ok : ∀ k sk, f k = some sk → OkKey flags sk
  bound : ∀ b, t.boundary = some b → OkKey flags b.1
  increasing : Increasing Entry.cmp t.buffer
  mem : ∀ e, e ∈ t.buffer ↔ f e.2 = some e.1 ∧ ∀ b, t.boundary = some b → Entry.cmp e b = .lt
  index : ∀ k sk, t.keyIndex[k]? = some sk ↔ (sk, k) ∈ t.buffer
  size : t.buffer.length ≤ t.capacity

namespace TopK

variable {t : TopK} {flags : List Bool} {f : String → Option SortKey}

theorem Holds.okEntry (h : t.Holds flags f) {e : Entry} (he : e ∈ t.buffer) : OkKey flags e.1 :=
  h.ok e.2 e.1 ((h.mem e).mp he).1

theorem Holds.congr {f' : String → Option SortKey} (h : t.Holds flags f) (hf : ∀ k, f' k = f k) :
    t.Holds flags f' := by
  obtain rfl : f' = f := funext hf
  exact h

/-- A record leaves the input. -/
theorem Holds.evict (h : t.Holds flags f) (k : String) :
    (t.evict k).Holds flags (update f k none) := by
  have hok : ∀ k' sk, update f k none k' = some sk → OkKey flags sk := by
    intro k' sk hf
    by_cases hk : k' = k
    · simp [hk] at hf
    · rw [update_of_ne hk] at hf
      exact h.ok k' sk hf
  unfold TopK.evict
  cases hi : t.keyIndex[k]? with
  | none =>
    have hno : ∀ e ∈ t.buffer, e.2 ≠ k := by
      rintro e he rfl
      rw [(h.index e.2 e.1).mpr he] at hi
      cases hi
    refine ⟨hok, h.bound, h.increasing, ?_, h.index, h.size⟩
    intro e
    by_cases hk : e.2 = k
    · constructor
      · intro he
        exact absurd hk (hno e he)
      · intro he
        simp [hk] at he
    · rw [update_of_ne hk]
      exact h.mem e
  | some sk =>
    have hin : (sk, k) ∈ t.buffer := (h.index k sk).mp hi
    have hsk : f k = some sk := ((h.mem _).mp hin).1
    have hl := entry_lawful flags
    have hS : ∀ e ∈ t.buffer, OkKey flags e.1 := fun e he => h.okEntry he
    have hmem : ∀ e, e ∈ removeBy Entry.cmp (sk, k) t.buffer ↔ e ∈ t.buffer ∧ e.2 ≠ k := by
      intro e
      rw [mem_removeBy hl (hS _ hin) hS h.increasing]
      constructor
      · rintro ⟨he, hne⟩
        refine ⟨he, ?_⟩
        intro hk
        have hf := ((h.mem e).mp he).1
        rw [hk, hsk] at hf
        exact hne (Prod.ext (Option.some.inj hf).symm hk)
      · rintro ⟨he, hne⟩
        exact ⟨he, fun heq => hne (by rw [heq])⟩
    refine ⟨hok, h.bound, h.increasing.sublist (removeBy_sublist _ _), ?_, ?_, ?_⟩
    · intro e
      dsimp only
      rw [hmem]
      by_cases hk : e.2 = k
      · simp [hk]
      · rw [update_of_ne hk, h.mem e]
        tauto
    · intro k' sk'
      dsimp only
      rw [hmem, getElem?_erase]
      by_cases hk : k' = k
      · simp [hk]
      · rw [if_neg (by simpa using Ne.symm hk), h.index]
        simp [hk]
    · exact (removeBy_sublist _ _).length_le.trans h.size

theorem Holds.ok_update {e : Entry} (h : t.Holds flags f) (he : OkKey flags e.1) :
    ∀ k sk, update f e.2 (some e.1) k = some sk → OkKey flags sk := by
  intro k sk hk
  by_cases hke : k = e.2
  · rw [hke, update_self] at hk
    cases hk
    exact he
  · rw [update_of_ne hke] at hk
    exact h.ok k sk hk

/-- Lowering the boundary to an entry above the whole buffer. -/
theorem Holds.lowerBoundary {e : Entry} (h : t.Holds flags f) (he : OkKey flags e.1)
    (hup : ∀ x ∈ t.buffer, Entry.cmp x e = .lt) (hf : f e.2 = none) :
    (t.lowerBoundary e).Holds flags (update f e.2 (some e.1)) := by
  have hl := entry_lawful flags
  have hok := h.ok_update he
  have hnot : ∀ x ∈ t.buffer, x.2 ≠ e.2 := by
    intro x hx hxe
    have := ((h.mem x).mp hx).1
    rw [hxe, hf] at this
    cases this
  unfold TopK.lowerBoundary
  split
  · next hall =>
    -- everything outside the buffer is above the new boundary
    have habove : ∀ x : Entry, f x.2 = some x.1 → x ∉ t.buffer → Entry.cmp x e ≠ .lt := by
      intro x hx hxb hlt
      refine hxb ((h.mem x).mpr ⟨hx, ?_⟩)
      intro b hb
      rw [hb] at hall
      have heb : Entry.cmp e b = .lt := by simpa using hall
      exact hl.trans x e b (h.ok _ _ hx) he (h.bound b hb) hlt heb
    refine ⟨hok, ?_, h.increasing, ?_, h.index, h.size⟩
    · rintro b hb
      cases hb
      exact he
    · intro x
      dsimp only
      constructor
      · intro hx
        refine ⟨?_, ?_⟩
        · rw [update_of_ne (hnot x hx)]
          exact ((h.mem x).mp hx).1
        · rintro b hb
          cases hb
          exact hup x hx
      · rintro ⟨hx, hb⟩
        have hlt := hb e rfl
        by_cases hk : x.2 = e.2
        · rw [hk, update_self] at hx
          obtain rfl : x = e := Prod.ext (Option.some.inj hx).symm hk
          rw [hl.refl x he] at hlt
          cases hlt
        · rw [update_of_ne hk] at hx
          by_contra hxb
          exact habove x hx hxb hlt
  · next hall =>
    obtain ⟨b, hb, hge⟩ : ∃ b, t.boundary = some b ∧ Entry.cmp e b ≠ .lt := by
      cases hb : t.boundary with
      | none => simp [hb] at hall
      | some b => exact ⟨b, rfl, by simpa [hb] using hall⟩
    refine ⟨hok, h.bound, h.increasing, ?_, h.index, h.size⟩
    intro x
    by_cases hk : x.2 = e.2
    · constructor
      · intro hx
        exact absurd hk (hnot x hx)
      · rintro ⟨hx, hxb⟩
        rw [hk, update_self] at hx
        obtain rfl : x = e := Prod.ext (Option.some.inj hx).symm hk
        exact absurd (hxb b hb) hge
    · rw [update_of_ne hk]
      exact h.mem x

/-- A record not below the boundary enters the input: the operator stays as it is. -/
theorem Holds.lowerBoundary_of_ge {e b : Entry} (h : t.Holds flags f) (he : OkKey flags e.1)
    (hb : t.boundary = some b) (hge : Entry.cmp e b ≠ .lt) (hf : f e.2 = none) :
    (t.lowerBoundary e).Holds flags (update f e.2 (some e.1)) := by
  have hl := entry_lawful flags
  refine h.lowerBoundary he ?_ hf
  intro x hx
  exact hl.lt_of_not_lt he (h.bound b hb) (h.okEntry hx) hge (((h.mem x).mp hx).2 b hb)

theorem getLast_max {cmp : Entry → Entry → Ordering} {l : List Entry} {m : Entry}
    (hs : Increasing cmp l) (hm : l.getLast? = some m) :
    l = l.dropLast ++ [m] ∧ ∀ x ∈ l.dropLast, cmp x m = .lt := by
  have hne : l ≠ [] := by
    rintro rfl
    cases hm
  have he : l = l.dropLast ++ [m] := by
    rw [List.getLast?_eq_some_getLast hne, Option.some.injEq] at hm
    rw [← hm]
    exact (List.dropLast_append_getLast hne).symm
  refine ⟨he, ?_⟩
  rw [he] at hs
  exact (increasing_concat.mp hs).2

/-- A record enters the input. -/
theorem Holds.insertEntry {e : Entry} (h : t.Holds flags f) (he : OkKey flags e.1)
    (hf : f e.2 = none) :
    (t.insertEntry e).Holds flags (update f e.2 (some e.1)) := by
  have hl := entry_lawful flags
  have hS : ∀ x ∈ t.buffer, OkKey flags x.1 := fun x hx => h.okEntry hx
  unfold TopK.insertEntry
  dsimp only
  split
  · next hpast =>
    rw [Bool.or_eq_true, Bool.and_eq_true] at hpast
    rcases hpast with ⟨-, hlast⟩ | hbound
    · -- past a full buffer
      obtain ⟨m, hm, hgt⟩ : ∃ m, t.buffer.getLast? = some m ∧ Entry.cmp e m = .gt := by
        simpa [Option.any_eq_true] using hlast
      obtain ⟨heq, hmax⟩ := getLast_max h.increasing hm
      have hmem : m ∈ t.buffer := List.mem_of_getLast? hm
      have hlt : Entry.cmp m e = .lt := hl.lt_of_gt he (hS m hmem) hgt
      refine h.lowerBoundary he ?_ hf
      intro x hx
      rw [heq, List.mem_append, List.mem_singleton] at hx
      rcases hx with hx | rfl
      · exact hl.trans x m e (hS x (List.dropLast_subset _ hx)) (hS m hmem) he (hmax x hx) hlt
      · exact hlt
    · -- past the boundary
      obtain ⟨b, hb, hge⟩ : ∃ b, t.boundary = some b ∧ Entry.cmp e b ≠ .lt := by
        simpa [Option.any_eq_true] using hbound
      exact h.lowerBoundary_of_ge he hb hge hf
  · next hpast =>
    have hbelow : ∀ b, t.boundary = some b → Entry.cmp e b = .lt := by
      intro b hb
      by_contra hge
      exact hpast (by simp [hb, hge])
    have hok := h.ok_update he
    have hin : ∀ x, x ∈ insertBy Entry.cmp e t.buffer ↔
        update f e.2 (some e.1) x.2 = some x.1 ∧
          ∀ b, t.boundary = some b → Entry.cmp x b = .lt := by
      intro x
      rw [mem_insertBy hl he hS]
      by_cases hk : x.2 = e.2
      · rw [hk, update_self]
        constructor
        · rintro (rfl | hx)
          · exact ⟨rfl, hbelow⟩
          · have := ((h.mem x).mp hx).1
            rw [hk, hf] at this
            cases this
        · rintro ⟨hx, -⟩
          exact .inl (Prod.ext (Option.some.inj hx).symm hk)
      · rw [update_of_ne hk, h.mem x]
        constructor
        · rintro (rfl | hx)
          · exact absurd rfl hk
          · exact hx
        · exact .inr
    have hidx : ∀ k' sk, (t.keyIndex.insert e.2 e.1)[k']? = some sk ↔
        (sk, k') ∈ insertBy Entry.cmp e t.buffer := by
      intro k' sk
      rw [mem_insertBy hl he hS, getElem?_insert]
      by_cases hk : k' = e.2
      · rw [if_pos (by simp [hk]), Option.some.injEq]
        constructor
        · rintro rfl
          exact .inl (Prod.ext rfl hk)
        · rintro (heq | hx)
          · exact (congrArg Prod.fst heq).symm
          · have : f k' = some sk := ((h.mem (sk, k')).mp hx).1
            rw [hk, hf] at this
            cases this
      · rw [if_neg (by simpa using Ne.symm hk), h.index]
        constructor
        · exact .inr
        · rintro (heq | hx)
          · exact absurd (congrArg Prod.snd heq) hk
          · exact hx
    have hinc := increasing_insertBy hl he hS h.increasing
    have hlen := length_insertBy_le Entry.cmp e t.buffer
    have hsize := h.size
    split
    · next hover =>
      split
      · next m hm =>
        obtain ⟨heq, hmax⟩ := getLast_max hinc hm
        have hmem : m ∈ insertBy Entry.cmp e t.buffer := List.mem_of_getLast? hm
        obtain ⟨hfm, hmb⟩ := (hin m).mp hmem
        have hSm : OkKey flags m.1 := hok _ _ hfm
        -- the largest entry goes and becomes the boundary
        have hlow : ∀ (t' : TopK), t'.boundary = t.boundary →
            t'.lowerBoundary m = { t' with boundary := some m } := by
          intro t' hb'
          unfold TopK.lowerBoundary
          rw [if_pos]
          rw [hb']
          cases hb : t.boundary with
          | none => rfl
          | some b => simp [hmb b hb]
        rw [hlow]
        swap
        · rfl
        have hdrop : ∀ x, x ∈ (insertBy Entry.cmp e t.buffer).dropLast ↔
            x ∈ insertBy Entry.cmp e t.buffer ∧ x ≠ m := by
          intro x
          constructor
          · intro hx
            have hlt := hmax x hx
            have hxin := List.dropLast_subset _ hx
            exact ⟨hxin, hl.lt_ne (hok _ _ ((hin x).mp hxin).1) hlt⟩
          · rintro ⟨hx, hne⟩
            rw [heq, List.mem_append, List.mem_singleton] at hx
            exact hx.resolve_right hne
        refine ⟨hok, ?_, ?_, ?_, ?_, ?_⟩
        · rintro b hb
          cases hb
          exact hSm
        · dsimp only
          rw [heq] at hinc
          exact (increasing_concat.mp hinc).1
        · intro x
          dsimp only
          constructor
          · intro hx
            refine ⟨((hin x).mp (List.dropLast_subset _ hx)).1, ?_⟩
            rintro b hb
            cases hb
            exact hmax x hx
          · rintro ⟨hfx, hb⟩
            have hlt := hb m rfl
            rw [hdrop, hin]
            refine ⟨⟨hfx, ?_⟩, hl.lt_ne (hok _ _ hfx) hlt⟩
            intro b hb'
            exact hl.trans x m b (hok _ _ hfx) hSm (h.bound b hb') hlt (hmb b hb')
        · intro k' sk
          dsimp only
          rw [getElem?_erase, hdrop]
          by_cases hk : k' = m.2
          · rw [if_pos (by simp [hk])]
            constructor
            · intro hc
              cases hc
            · rintro ⟨hx, hne⟩
              have h1 := ((hin (sk, k')).mp hx).1
              simp only at h1
              rw [hk, hfm] at h1
              exact absurd (Prod.ext (Option.some.inj h1).symm hk) hne
          · rw [if_neg (by simpa using Ne.symm hk), hidx]
            constructor
            · exact fun hx => ⟨hx, fun he' => hk (congrArg Prod.snd he')⟩
            · exact fun hx => hx.1
        · dsimp only
          rw [List.length_dropLast]
          omega
      · next hm =>
        rw [List.getLast?_eq_none_iff] at hm
        rw [hm] at hover
        simp at hover
    · next hover =>
      exact ⟨hok, h.bound, hinc, hin, hidx, by dsimp only at hover ⊢; omega⟩

/-! ## Stepping -/

/-- What a delta entry leaves under its key. -/
def entryAfter (store : Store) (t : TopK) (k : String) (w : Int) (old : Option SortKey) :
    Option SortKey :=
  if 0 < w then some (computeSortKey t.orderBy k store) else if w < 0 then none else old

theorem orderBy_of_reset {t' : TopK} (h : t'.reset = t.reset) : t'.orderBy = t.orderBy := by
  have := congrArg TopK.orderBy h
  exact this

theorem Holds.stepKey (h : t.Holds flags f) (store : Store) (k : String) (w : Int)
    (hok : 0 < w → OkKey flags (computeSortKey t.orderBy k store)) :
    (TopK.stepKey store t (k, w)).Holds flags
      (update f k (entryAfter store t k w (f k))) := by
  unfold TopK.stepKey entryAfter
  dsimp only
  split
  · next hw =>
    have h2 := (h.evict k).insertEntry (e := (computeSortKey t.orderBy k store, k)) (hok hw)
      (update_self k none f)
    refine h2.congr fun k' => ?_
    by_cases hk : k' = k
    · simp [hk]
    · simp [update_of_ne hk]
  · split
    · exact h.evict k
    · exact h.congr fun k' => by rw [Function.update_eq_self]

theorem Holds.foldl_stepKey (store : Store) (l : List (String × Int)) (hd : (l.map Prod.fst).Nodup)
    (h : t.Holds flags f)
    (hok : ∀ k w, (k, w) ∈ l → 0 < w → OkKey flags (computeSortKey t.orderBy k store)) :
    ∃ f', (l.foldl (TopK.stepKey store) t).Holds flags f' ∧
      (∀ k w, (k, w) ∈ l → f' k = entryAfter store t k w (f k)) ∧
      ∀ k, k ∉ l.map Prod.fst → f' k = f k := by
  induction l generalizing t f with
  | nil => exact ⟨f, h, by simp, by simp⟩
  | cons kw l ih =>
    obtain ⟨k, w⟩ := kw
    simp only [List.map_cons, List.nodup_cons] at hd
    have hob : (TopK.stepKey store t (k, w)).orderBy = t.orderBy :=
      orderBy_of_reset (stepKey_reset store t (k, w))
    obtain ⟨f', h1, h2, h3⟩ := ih hd.2 (h.stepKey store k w (hok k w List.mem_cons_self))
      (by
        rw [hob]
        exact fun k' w' hin => hok k' w' (List.mem_cons_of_mem _ hin))
    refine ⟨f', h1, ?_, ?_⟩
    · intro k' w' hin
      rcases List.mem_cons.mp hin with heq | hin'
      · cases heq
        rw [h3 k hd.1, update_self]
      · have hne : k' ≠ k := by
          rintro rfl
          exact hd.1 (List.mem_map.mpr ⟨(k', w'), hin', rfl⟩)
        rw [h2 k' w' hin', update_of_ne hne]
        unfold entryAfter
        rw [hob]
    · intro k' hk'
      simp only [List.map_cons, List.mem_cons, not_or] at hk'
      rw [h3 k' hk'.2, update_of_ne hk'.1]

/-- A step of the operator moves the input set by the delta. -/
theorem Holds.step (h : t.Holds flags f) (ho : HashOrder) (store : Store) (delta : ZSet)
    (hok : ∀ k w, delta[k]? = some w → 0 < w → OkKey flags (computeSortKey t.orderBy k store)) :
    (t.step ho store delta).1.Holds flags fun k =>
      match delta[k]? with
      | none => f k
      | some w => entryAfter store t k w (f k) := by
  have hd := nodup_keys_entriesIn delta ((ho.perm delta.keys).nodup_iff.mpr (nodup_keys delta))
  obtain ⟨f', h1, h2, h3⟩ := h.foldl_stepKey store _ hd fun k w hin =>
    hok k w (mem_entriesIn.mp hin).2
  refine h1.congr fun k => ?_
  cases hk : delta[k]? with
  | none =>
    rw [h3 k]
    intro hin
    obtain ⟨⟨k', w⟩, hin', rfl⟩ := List.mem_map.mp hin
    rw [(mem_entriesIn.mp hin').2] at hk
    cases hk
  | some w =>
    rw [h2 k w]
    refine mem_entriesIn.mpr ⟨?_, hk⟩
    rw [mem_visit, mem_keys]
    exact mem_of_getElem? hk

/-! ## The window of the sorted input -/

/-- A list of the entries of an input set. -/
structure Lists (f : String → Option SortKey) (items : List Entry) : Prop where
  nodup : items.Nodup
  mem : ∀ e, e ∈ items ↔ f e.2 = some e.1

/-- The buffer is a first part of the sorted input, all of it when nothing was dropped. -/
theorem Holds.buffer_prefix (h : t.Holds flags f) {items : List Entry} (hi : Lists f items) :
    t.buffer <+: sortBy Entry.cmp items ∧
      (t.boundary = none → t.buffer = sortBy Entry.cmp items) := by
  have hl := entry_lawful flags
  have hS : ∀ e ∈ sortBy Entry.cmp items, OkKey flags e.1 := fun e he =>
    h.ok e.2 e.1 ((hi.mem e).mp (mem_sortBy.mp he))
  have hinc := increasing_sortBy hl (fun e he => hS e (mem_sortBy.mpr he)) hi.nodup
  have hbuf : ∀ e ∈ t.buffer, OkKey flags e.1 := fun e he => h.okEntry he
  cases hb : t.boundary with
  | none =>
    have heq : t.buffer = sortBy Entry.cmp items := by
      refine increasing_ext hl hbuf h.increasing hinc fun e => ?_
      rw [h.mem, mem_sortBy, hi.mem, hb]
      simp
    exact ⟨heq ▸ List.prefix_rfl, fun _ => heq⟩
  | some b =>
    have heq : t.buffer = (sortBy Entry.cmp items).filter fun e => Entry.cmp e b == .lt := by
      refine increasing_ext hl hbuf h.increasing (hinc.sublist List.filter_sublist) fun e => ?_
      rw [h.mem, List.mem_filter, mem_sortBy, hi.mem, hb]
      simp
    refine ⟨?_, fun hc => by cases hc⟩
    rw [heq]
    exact filter_lt_prefix hl hS hinc (h.bound b hb)

/-- A window that needs no rebuild is the window of the sorted input. -/
theorem Holds.currentWindow_eq (h : t.Holds flags f) {items : List Entry} (hi : Lists f items)
    (hfit : t.offset + t.limit < 2 ^ 64) (hr : t.needsRebuild = false) :
    t.currentWindow =
      (((sortBy Entry.cmp items).drop t.offset).take t.limit).map Prod.snd := by
  obtain ⟨hpre, hall⟩ := h.buffer_prefix hi
  -- the window reads the first `offset + limit` entries
  have hfirst : t.buffer.take (t.offset + t.limit) =
      (sortBy Entry.cmp items).take (t.offset + t.limit) := by
    cases hb : t.boundary with
    | none => rw [hall hb]
    | some b =>
      have hlen : t.offset + t.limit ≤ t.buffer.length := by
        have hge : ¬ t.buffer.length < saturatingAdd t.offset t.limit := by
          simpa [needsRebuild, hb] using hr
        unfold saturatingAdd usizeMax at hge
        omega
      obtain ⟨r, hr'⟩ := hpre
      rw [← hr', List.take_append_of_le_length hlen]
  have hread : t.currentWindow = ((t.buffer.drop t.offset).take t.limit).map Prod.snd := by
    unfold currentWindow
    dsimp only
    split
    · next hn => simp [List.drop_eq_nil_of_le hn]
    · next hn =>
      congr 1
      rw [Nat.mod_eq_of_lt (by unfold usizeMax; omega)]
      rw [List.take_eq_take_iff, List.length_drop]
      omega
  rw [hread, List.take_drop, List.take_drop, hfirst]

theorem Holds.nodup_window (h : t.Holds flags f) : t.currentWindow.Nodup := by
  have hkeys : (t.buffer.map Prod.snd).Nodup := by
    have hnd := increasing_nodup (entry_lawful flags) (fun e he => h.okEntry he) h.increasing
    refine List.Nodup.map_on ?_ hnd
    intro a ha b hb hab
    have h1 := ((h.mem a).mp ha).1
    have h2 := ((h.mem b).mp hb).1
    rw [hab, h2] at h1
    exact Prod.ext (Option.some.inj h1).symm hab
  unfold currentWindow
  dsimp only
  split
  · exact List.nodup_nil
  · refine hkeys.sublist (List.Sublist.map _ ?_)
    exact (List.take_sublist _ _).trans (List.drop_sublist _ _)

/-! ## Window deltas -/

/-- The Z-set of a list of keys. -/
def keySet (keys : List String) : ZSet := keys.foldl (fun (z : ZSet) k => z.insert k 1) ∅

theorem getElem?_keySet (keys : List String) (k : String) :
    (keySet keys)[k]? = if k ∈ keys then some 1 else none := by
  have hfold : ∀ (z : ZSet), (keys.foldl (fun (z : ZSet) k => z.insert k 1) z)[k]? =
      if k ∈ keys then some 1 else z[k]? := by
    intro z
    induction keys generalizing z with
    | nil => simp
    | cons k' keys ih =>
      rw [List.foldl_cons, ih, getElem?_insert]
      by_cases hk : k' = k
      · simp [hk]
      · simp [hk, Ne.symm hk]
  rw [keySet, hfold]
  simp

variable {old new mid : List String}

theorem getElem?_windowDelta (hold : old.Nodup) (hnew : new.Nodup) (k : String) :
    (windowDelta old new)[k]? =
      if k ∈ new then if k ∈ old then none else some 1
      else if k ∈ old then some (-1) else none := by
  have hfold : ∀ (a b : List String) (d : Int) (z : ZSet), a.Nodup →
      (a.foldl (fun (z : ZSet) k => if b.contains k then z
        else z.alter k (fun w => some (w.getD 0 + d))) z)[k]? =
        if k ∈ a ∧ k ∉ b then some (z[k]?.getD 0 + d) else z[k]? := by
    intro a b d z ha
    have hfilter : a.foldl (fun (z : ZSet) k => if b.contains k then z
        else z.alter k (fun w => some (w.getD 0 + d))) z =
        (a.filter fun k => !b.contains k).foldl
          (fun (z : ZSet) k => z.alter k (fun w => some (w.getD 0 + d))) z := by
      rw [List.foldl_filter]
      congr
      funext z k
      cases b.contains k <;> rfl
    rw [hfilter, getElem?_foldl_alter_keys (fun _ w => some (w.getD 0 + d)) _ (ha.filter _)]
    simp
  unfold windowDelta
  dsimp only
  rw [getElem?_filter']
  have h2 := hfold old new (-1) (new.foldl (fun (z : ZSet) k => if old.contains k then z
    else z.alter k (fun w => some (w.getD 0 + 1))) ∅) hold
  simp only [← Int.sub_eq_add_neg] at h2
  rw [h2, hfold new old 1 ∅ hnew]
  by_cases h3 : k ∈ new <;> by_cases h4 : k ∈ old <;> simp [h3, h4, Option.filter]

theorem windowDelta_self (hold : old.Nodup) : windowDelta old old = ∅ := by
  refine ExtTreeMap.ext_getElem? fun k => ?_
  rw [getElem?_windowDelta hold hold]
  by_cases h : k ∈ old <;> simp [h]

/-- Deltas of consecutive windows add up. -/
theorem windowDelta_trans (hold : old.Nodup) (hmid : mid.Nodup) (hnew : new.Nodup) :
    (foldDelta (windowDelta old mid) (windowDelta mid new)).filter (fun _ w => w != 0) =
      windowDelta old new := by
  refine ExtTreeMap.ext_getElem? fun k => ?_
  rw [getElem?_filter', foldDelta, getElem?_foldAlter, getElem?_windowDelta hold hmid,
    getElem?_windowDelta hmid hnew, getElem?_windowDelta hold hnew]
  by_cases h1 : k ∈ old <;> by_cases h2 : k ∈ mid <;> by_cases h3 : k ∈ new <;>
    simp [h1, h2, h3, Option.filter]

/-- The delta between two windows moves one to the other. -/
theorem applyDelta_windowDelta (hold : old.Nodup) (hnew : new.Nodup) :
    View.applyDelta (keySet old) (windowDelta old new) = keySet new := by
  refine ExtTreeMap.ext_getElem? fun k => ?_
  rw [getElem?_applyDelta, getElem?_windowDelta hold hnew, ZSet.weight, getElem?_keySet,
    getElem?_keySet]
  by_cases h1 : k ∈ old <;> by_cases h2 : k ∈ new <;> simp [h1, h2]

/-! ## Reordering -/

theorem Holds.evict_absent (h : t.Holds flags f) {k : String} (hk : t.keyIndex[k]? = none) :
    t.Holds flags (update f k none) := by
  have he : t.evict k = t := by
    unfold TopK.evict
    rw [hk]
  have := h.evict k
  rwa [he] at this

/-- Reordering a key puts its current sort key, if any, in place of the old one, and emits the
    difference of the windows. -/
theorem Holds.reorderKey (h : t.Holds flags f) (ho : HashOrder) (store : Store) (k : String)
    (now : Bool) (hok : now = true → OkKey flags (computeSortKey t.orderBy k store)) :
    (t.reorderKey ho store k now).1.Holds flags
        (update f k (if now then some (computeSortKey t.orderBy k store) else none)) ∧
      (t.reorderKey ho store k now).2 =
        windowDelta t.currentWindow (t.reorderKey ho store k now).1.currentWindow := by
  -- the key leaves
  obtain ⟨t1, d1, he1, h1, hd1, hob⟩ : ∃ t1 d1,
      (if t.keyIndex.contains k then t.step ho store {(k, -1)} else (t, ∅)) = (t1, d1) ∧
        t1.Holds flags (update f k none) ∧
        d1 = windowDelta t.currentWindow t1.currentWindow ∧ t1.orderBy = t.orderBy := by
    split
    · refine ⟨_, _, rfl, ?_, rfl, orderBy_of_reset (step_reset ho store t _)⟩
      refine (h.step ho store {(k, -1)} ?_).congr fun k' => ?_
      · intro k' w hk' hw
        rw [ExtTreeMap.singleton_eq_insert, getElem?_insert] at hk'
        split at hk'
        · cases hk'
          omega
        · simp at hk'
      · rw [ExtTreeMap.singleton_eq_insert, getElem?_insert]
        by_cases hk' : k' = k
        · simp [hk', entryAfter]
        · simp [update_of_ne hk', Ne.symm hk']
    · next hc =>
      refine ⟨t, ∅, rfl, h.evict_absent ?_, (windowDelta_self h.nodup_window).symm, rfl⟩
      rw [ExtTreeMap.contains_eq_isSome_getElem?] at hc
      simpa only [Bool.not_eq_true, Option.isSome_eq_false_iff, Option.isNone_iff_eq_none] using hc
  -- it enters under its current sort key
  obtain ⟨t2, d2, he2, h2, hd2⟩ : ∃ t2 d2,
      (if now then t1.step ho store {(k, 1)} else (t1, ∅)) = (t2, d2) ∧
        t2.Holds flags (update f k
          (if now then some (computeSortKey t.orderBy k store) else none)) ∧
        d2 = windowDelta t1.currentWindow t2.currentWindow := by
    cases now with
    | true =>
      refine ⟨_, _, rfl, ?_, rfl⟩
      refine (h1.step ho store {(k, 1)} ?_).congr fun k' => ?_
      · intro k' w hk' hw
        rw [ExtTreeMap.singleton_eq_insert, getElem?_insert] at hk'
        split at hk'
        · next heq =>
          rw [← LawfulEqCmp.eq_of_compare heq, hob]
          exact hok rfl
        · simp at hk'
      · rw [ExtTreeMap.singleton_eq_insert, getElem?_insert]
        by_cases hk' : k' = k
        · simp [hk', entryAfter, hob]
        · simp [update_of_ne hk', Ne.symm hk']
    | false => exact ⟨t1, ∅, rfl, h1, (windowDelta_self h1.nodup_window).symm⟩
  have hr : t.reorderKey ho store k now =
      (t2, (foldDelta (foldDelta ∅ d1) d2).filter fun _ w => w != 0) := by
    unfold TopK.reorderKey
    dsimp only
    rw [he1, he2]
  have hd0 : foldDelta ∅ d1 = d1 := by
    refine ExtTreeMap.ext_getElem? fun k => ?_
    rw [foldDelta, getElem?_foldAlter]
    cases d1[k]? <;> simp
  rw [hr]
  refine ⟨h2, ?_⟩
  rw [hd0, hd1, hd2]
  exact windowDelta_trans h.nodup_window h1.nodup_window h2.nodup_window

/-! ## Priming -/

/-- Records were dropped only for want of room. -/
def Full (t : TopK) : Prop := t.boundary.isSome → t.capacity ≤ t.buffer.length

theorem new_holds (limit offset : Nat) (orderBy : Option (List OrderSpec)) (flags : List Bool) :
    (TopK.new limit offset orderBy).Holds flags fun _ => none := by
  refine ⟨?_, ?_, ?_, ?_, ?_, ?_⟩ <;> simp [TopK.new, Increasing]

theorem insertEntry_full (h : t.Full) (e : Entry) : (t.insertEntry e).Full := by
  have hlow : ∀ (t' : TopK) (x : Entry), t'.capacity ≤ t'.buffer.length →
      (t'.lowerBoundary x).Full := by
    intro t' x hle
    unfold TopK.lowerBoundary
    split <;> exact fun _ => hle
  unfold TopK.insertEntry
  dsimp only
  split
  · next hpast =>
    rw [Bool.or_eq_true, Bool.and_eq_true] at hpast
    refine hlow t e ?_
    rcases hpast with ⟨hc, -⟩ | hb
    · simpa using hc
    · refine h ?_
      cases hb' : t.boundary with
      | none => simp [hb'] at hb
      | some b => rfl
  · split
    · next hover =>
      split
      · refine hlow _ _ ?_
        dsimp only at hover ⊢
        rw [List.length_dropLast]
        omega
      · exact fun _ => hover.le
    · intro hb
      have := h hb
      exact this.trans (length_le_insertBy Entry.cmp e t.buffer)

theorem foldl_stepKey_full (store : Store) (l : List (String × Int)) (hd : (l.map Prod.fst).Nodup)
    (h : t.Holds flags f) (hfull : t.Full) (hfresh : ∀ k w, (k, w) ∈ l → f k = none ∧ 0 < w)
    (hok : ∀ k w, (k, w) ∈ l → 0 < w → OkKey flags (computeSortKey t.orderBy k store)) :
    (l.foldl (TopK.stepKey store) t).Full := by
  induction l generalizing t f with
  | nil => exact hfull
  | cons kw l ih =>
    obtain ⟨k, w⟩ := kw
    simp only [List.map_cons, List.nodup_cons] at hd
    obtain ⟨hf, hw⟩ := hfresh k w List.mem_cons_self
    have hob : (TopK.stepKey store t (k, w)).orderBy = t.orderBy :=
      orderBy_of_reset (stepKey_reset store t (k, w))
    have hidx : t.keyIndex[k]? = none := by
      cases hi : t.keyIndex[k]? with
      | none => rfl
      | some sk =>
        have := ((h.mem _).mp ((h.index k sk).mp hi)).1
        rw [hf] at this
        cases this
    have hev : t.evict k = t := by
      unfold TopK.evict
      rw [hidx]
    rw [List.foldl_cons]
    refine ih hd.2 (h.stepKey store k w (hok k w List.mem_cons_self)) ?_ ?_ ?_
    · unfold TopK.stepKey
      rw [if_pos hw, hev]
      exact insertEntry_full hfull _
    · intro k' w' hin
      have hne : k' ≠ k := by
        rintro rfl
        exact hd.1 (List.mem_map.mpr ⟨(k', w'), hin, rfl⟩)
      rw [update_of_ne hne]
      exact hfresh k' w' (List.mem_cons_of_mem _ hin)
    · rw [hob]
      exact fun k' w' hin => hok k' w' (List.mem_cons_of_mem _ hin)

/-- A fresh operator primed with a set of records needs no rebuild. -/
theorem new_step_needsRebuild (limit offset : Nat) (orderBy : Option (List OrderSpec))
    (ho : HashOrder) (store : Store) {delta : ZSet}
    (hpos : ∀ (k : String) (w : Int), delta[k]? = some w → 0 < w)
    (hok : ∀ (k : String) (w : Int), delta[k]? = some w → OkKey flags (computeSortKey orderBy k store)) :
    ((TopK.new limit offset orderBy).step ho store delta).1.needsRebuild = false := by
  have hd := nodup_keys_entriesIn delta ((ho.perm delta.keys).nodup_iff.mpr (nodup_keys delta))
  have hfull : ((TopK.new limit offset orderBy).step ho store delta).1.Full := by
    refine foldl_stepKey_full store _ hd (new_holds limit offset orderBy flags) ?_ ?_ ?_
    · intro hb
      simp [TopK.new] at hb
    · exact fun k w hin => ⟨rfl, hpos k w (mem_entriesIn.mp hin).2⟩
    · exact fun k w hin _ => hok k w (mem_entriesIn.mp hin).2
  have hreset := step_reset ho store (TopK.new limit offset orderBy) delta
  have hlim := congrArg TopK.limit hreset
  have hoff := congrArg TopK.offset hreset
  have hcap := congrArg TopK.capacity hreset
  simp only [reset, TopK.new] at hlim hoff hcap
  unfold needsRebuild
  by_cases hb : ((TopK.new limit offset orderBy).step ho store delta).1.boundary.isSome
  · have hle := hfull hb
    rw [TopK.new, hcap] at hle
    rw [TopK.new] at hb ⊢
    rw [hlim, hoff, hb, Bool.true_and, decide_eq_false_iff_not]
    unfold saturatingAdd at hle ⊢
    omega
  · simp [hb]

end TopK

/-! ## Sort keys of rows -/

/-- The directions of an `ORDER BY`; without one the row key sorts ascending. -/
def orderFlags (orderBy : Option (List OrderSpec)) : List Bool :=
  match orderBy with
  | some orders => orders.map OrderSpec.isDesc
  | none => [false]

theorem computeSortKey_ok {orderBy : Option (List OrderSpec)} {key : String} {store : Store}
    (h : ∀ o ∈ orderBy.getD [], ∀ x,
      resolveField (store.getRowByKey key) o.field ≠ some (.float x)) :
    OkKey (orderFlags orderBy) (TopK.computeSortKey orderBy key store) := by
  cases orderBy with
  | none => exact ⟨rfl, trivial, trivial⟩
  | some orders =>
    simp only [Option.getD_some] at h
    unfold orderFlags TopK.computeSortKey
    dsimp only
    induction orders with
    | nil => trivial
    | cons o orders ih =>
      have ho := h o List.mem_cons_self
      refine ⟨rfl, ?_, ih (List.forall_mem_cons.mp h).2⟩
      dsimp only
      generalize resolveField (store.getRowByKey key) o.field = r at ho
      cases r with
      | none => trivial
      | some x =>
        cases x with
        | float y => exact absurd rfl (ho y)
        | _ => trivial

end Sp00ky.Ssp
