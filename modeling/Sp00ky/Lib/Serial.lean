/-
  Blocks of operations that run interleaved.

  An operation reads and writes one cell and the scope of its block. A block that comes later in an
  order leaves the cells of an operation alone as long as it has not touched them, so an operation
  that finds its cell untouched by later blocks might as well have run before them
  (`execAll_serial`): the cells are at any time what the parts done so far leave when they run one
  block after the other. Where every block has done all of its writes or none, these are the whole
  blocks that have (`serialCells_whole`).
-/
import Mathlib.Data.List.Nodup
import Mathlib.Logic.Function.Basic

namespace Sp00ky.Lib

/-- The cells, and the scope of each block. -/
structure Memory (κ δ ι σ : Type) where
  cells : κ → δ
  scopes : ι → σ

namespace Serial

open Function (update update_comm update_eq_self update_of_ne update_self)

variable {κ δ ι σ α : Type} [DecidableEq κ] [DecidableEq ι]
  (cell : α → κ) (run : α → σ → δ → σ × δ)

/-- One operation of a block. -/
def exec (b : ι) (m : Memory κ δ ι σ) (a : α) : Memory κ δ ι σ :=
  let r := run a (m.scopes b) (m.cells (cell a))
  ⟨update m.cells (cell a) r.2, update m.scopes b r.1⟩

def execAll (b : ι) (m : Memory κ δ ι σ) (l : List α) : Memory κ δ ι σ := l.foldl (exec cell run b) m

/-- The parts done so far, one block after the other. -/
def serial (done : ι → List α) (m : Memory κ δ ι σ) (order : List ι) : Memory κ δ ι σ :=
  order.foldl (fun m b => execAll cell run b m (done b)) m

/-- What comes behind a block. -/
def later (order : List ι) (b : ι) : List ι := (order.dropWhile (· ≠ b)).tail

/-- No later block has touched a cell of these operations. -/
def InOrder (order : List ι) (done : ι → List α) (b : ι) (l : List α) : Prop :=
  b ∈ order ∧ ∀ b' ∈ later order b, ∀ a' ∈ done b', ∀ a ∈ l, cell a' ≠ cell a

instance (order : List ι) (done : ι → List α) (b : ι) (l : List α) :
    Decidable (InOrder cell order done b l) := inferInstanceAs (Decidable (_ ∧ _))

/-! ## Operations of different blocks -/

variable {cell run} {b b' : ι}

theorem exec_comm (hb : b ≠ b') {a a' : α} (hc : cell a ≠ cell a') (m : Memory κ δ ι σ) :
    exec cell run b (exec cell run b' m a') a = exec cell run b' (exec cell run b m a) a' := by
  unfold exec
  simp only [update_of_ne hb, update_of_ne hc, update_of_ne hb.symm,
    update_of_ne hc.symm]
  rw [update_comm hc.symm, update_comm hb.symm]

theorem execAll_exec (hb : b ≠ b') {a : α} {l : List α}
    (hc : ∀ a' ∈ l, cell a' ≠ cell a) (m : Memory κ δ ι σ) :
    execAll cell run b' (exec cell run b m a) l = exec cell run b (execAll cell run b' m l) a := by
  unfold execAll
  induction l generalizing m with
  | nil => rfl
  | cons a' l ih =>
    rw [List.foldl_cons, List.foldl_cons, ← exec_comm hb (hc a' List.mem_cons_self).symm,
      ih fun a'' h => hc a'' (List.mem_cons_of_mem _ h)]

/-- An operation moves past the blocks that do not touch its cell. -/
theorem serial_exec {a : α} {done : ι → List α} {post : List ι} (hb : b ∉ post)
    (hc : ∀ b' ∈ post, ∀ a' ∈ done b', cell a' ≠ cell a) (m : Memory κ δ ι σ) :
    serial cell run done (exec cell run b m a) post =
      exec cell run b (serial cell run done m post) a := by
  unfold serial
  induction post generalizing m with
  | nil => rfl
  | cons b' post ih =>
    rw [List.mem_cons, not_or] at hb
    rw [List.foldl_cons, List.foldl_cons, execAll_exec hb.1 (hc b' List.mem_cons_self),
      ih hb.2 fun b'' h => hc b'' (List.mem_cons_of_mem _ h)]

variable {order : List ι}

theorem eq_append_later (h : b ∈ order) :
    ∃ pre, order = pre ++ b :: later order b := by
  induction order with
  | nil => cases h
  | cons x order ih =>
    by_cases hx : x = b
    · subst hx
      exact ⟨[], by simp [later]⟩
    · obtain ⟨pre, hpre⟩ := ih ((List.mem_cons.mp h).resolve_left (Ne.symm hx))
      have hlater : later (x :: order) b = later order b := by
        unfold later
        rw [List.dropWhile_cons_of_pos (by simpa using hx)]
      exact ⟨x :: pre, by rw [hlater, List.cons_append, ← hpre]⟩

theorem serial_update_of_not_mem {l : List α} {done : ι → List α}
    (h : b ∉ order) (m : Memory κ δ ι σ) :
    serial cell run (update done b l) m order = serial cell run done m order := by
  unfold serial
  induction order generalizing m with
  | nil => rfl
  | cons x order ih =>
    rw [List.mem_cons, not_or] at h
    rw [List.foldl_cons, List.foldl_cons, update_of_ne (Ne.symm h.1), ih h.2]

theorem serial_append (done : ι → List α) (m : Memory κ δ ι σ) (order order' : List ι) :
    serial cell run done m (order ++ order') =
      serial cell run done (serial cell run done m order) order' := List.foldl_append

/-- One operation in order: as if its block had run with it before the later ones. -/
theorem exec_serial (hnodup : order.Nodup) {done : ι → List α} {a : α}
    (h : InOrder cell order done b [a]) (m : Memory κ δ ι σ) :
    exec cell run b (serial cell run done m order) a =
      serial cell run (update done b (done b ++ [a])) m order := by
  obtain ⟨pre, hpre⟩ := eq_append_later h.1
  have hn := hnodup
  rw [hpre, List.nodup_append] at hn
  obtain ⟨-, hpost, hdisj⟩ := hn
  have hbpre : b ∉ pre := fun hb => hdisj b hb b List.mem_cons_self rfl
  have hbpost : b ∉ later order b := (List.nodup_cons.mp hpost).1
  have hsplit : ∀ (d : ι → List α), serial cell run d m order =
      serial cell run d (execAll cell run b (serial cell run d m pre) (d b)) (later order b) := by
    intro d
    conv_lhs => rw [hpre, serial_append]
    rfl
  rw [hsplit, hsplit, serial_update_of_not_mem hbpre, serial_update_of_not_mem hbpost,
    update_self]
  rw [← serial_exec hbpost fun b' hb' a' ha' => h.2 b' hb' a' ha' a (List.mem_singleton_self a)]
  unfold execAll
  rw [List.foldl_append]
  rfl

/-- The operations of one message in order. -/
theorem execAll_serial (hnodup : order.Nodup) {done : ι → List α}
    {l : List α} (h : InOrder cell order done b l) (m : Memory κ δ ι σ) :
    execAll cell run b (serial cell run done m order) l =
      serial cell run (update done b (done b ++ l)) m order := by
  induction l generalizing done with
  | nil => rw [List.append_nil, update_eq_self]; rfl
  | cons a l ih =>
    have hfirst : InOrder cell order done b [a] := by
      refine ⟨h.1, fun b' hb' a' ha' x hx => ?_⟩
      rw [List.mem_singleton.mp hx]
      exact h.2 b' hb' a' ha' a List.mem_cons_self
    have hrest : InOrder cell order (update done b (done b ++ [a])) b l := by
      refine ⟨h.1, fun b' hb' a' ha' x hx => ?_⟩
      have hne : b' ≠ b := by
        rintro rfl
        obtain ⟨pre, hpre⟩ := eq_append_later h.1
        rw [hpre, List.nodup_append] at hnodup
        exact (List.nodup_cons.mp hnodup.2.1).1 hb'
      rw [update_of_ne hne] at ha'
      exact h.2 b' hb' a' ha' x (List.mem_cons_of_mem _ hx)
    have hnext := ih hrest
    rw [update_self, Function.update_idem, List.append_assoc, List.singleton_append]
      at hnext
    rw [← hnext, ← exec_serial hnodup hfirst]
    rfl

/-! ## Whole blocks -/

variable (cell run)

/-- The cells after a block that starts with a scope. -/
def after (scope : σ) (cells : κ → δ) (l : List α) : κ → δ :=
  (l.foldl (fun m a =>
    let r := run a m.1 (m.2 (cell a))
    (r.1, update m.2 (cell a) r.2)) (scope, cells)).2

variable {cell run}

theorem execAll_cells (b : ι) (m : Memory κ δ ι σ) (l : List α) :
    (execAll cell run b m l).cells = after cell run (m.scopes b) m.cells l := by
  unfold execAll after
  induction l generalizing m with
  | nil => rfl
  | cons a l ih =>
    rw [List.foldl_cons, ih, List.foldl_cons]
    unfold exec
    simp only [update_self]

theorem execAll_scopes_of_ne (h : b' ≠ b) (m : Memory κ δ ι σ) (l : List α) :
    (execAll cell run b m l).scopes b' = m.scopes b' := by
  unfold execAll
  induction l generalizing m with
  | nil => rfl
  | cons a l ih =>
    rw [List.foldl_cons, ih]
    exact update_of_ne h _ _

/-- The cells after the blocks one after the other, each from the scope they start with. -/
theorem serial_cells (scope : σ) {done : ι → List α} (hnodup : order.Nodup)
    {m : Memory κ δ ι σ} (hm : ∀ b ∈ order, m.scopes b = scope) :
    (serial cell run done m order).cells =
      order.foldl (fun cells b => after cell run scope cells (done b)) m.cells := by
  unfold serial
  induction order generalizing m with
  | nil => rfl
  | cons b order ih =>
    obtain ⟨hb, hnodup⟩ := List.nodup_cons.mp hnodup
    rw [List.foldl_cons, ih hnodup, List.foldl_cons, execAll_cells, hm b List.mem_cons_self]
    intro b' hb'
    have hne : b' ≠ b := fun he => hb (he ▸ hb')
    rw [execAll_scopes_of_ne hne]
    exact hm b' (List.mem_cons_of_mem _ hb')

theorem after_append_of_reads {scope : σ} {cells : κ → δ} {l l' : List α}
    (h : ∀ a ∈ l', ∀ s d, (run a s d).2 = d) :
    after cell run scope cells (l ++ l') = after cell run scope cells l := by
  unfold after
  rw [List.foldl_append]
  generalize l.foldl _ (scope, cells) = m
  induction l' generalizing m with
  | nil => rfl
  | cons a l' ih =>
    rw [List.foldl_cons, ih (List.forall_mem_cons.mp h).2]
    simp only
    rw [h a List.mem_cons_self, update_eq_self]

omit [DecidableEq ι] in
/-- Blocks that have done all of their writes or none of them. -/
theorem serialCells_whole {writes : α → Bool}
    (hwrites : ∀ a, writes a = false → ∀ s d, (run a s d).2 = d) {scope : σ}
    {done : ι → List α} (rest : ι → List α)
    (h : ∀ b ∈ order, (rest b).any writes = false ∨ (done b).any writes = false) (cells : κ → δ) :
    order.foldl (fun cells b => after cell run scope cells (done b)) cells =
      (order.filter fun b => (done b).any writes).foldl
        (fun cells b => after cell run scope cells (done b ++ rest b)) cells := by
  have hreads : ∀ l : List α, l.any writes = false → ∀ a ∈ l, ∀ s d, (run a s d).2 = d := by
    intro l hl a ha
    refine hwrites a ?_
    rw [List.any_eq_false] at hl
    simpa using hl a ha
  induction order generalizing cells with
  | nil => rfl
  | cons b order ih =>
    have hrest := ih (List.forall_mem_cons.mp h).2
    rw [List.foldl_cons, hrest]
    cases hb : (done b).any writes with
    | true =>
      have hnone := (h b List.mem_cons_self).resolve_right (by simp [hb])
      rw [List.filter_cons_of_pos (by simpa using hb), List.foldl_cons,
        after_append_of_reads (hreads _ hnone)]
    | false =>
      have hsame : after cell run scope cells (done b) = cells :=
        after_append_of_reads (l := []) (hreads _ hb)
      rw [List.filter_cons_of_neg (by simp [hb]), hsame]

end Serial

end Sp00ky.Lib
