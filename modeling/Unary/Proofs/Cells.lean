import Unary.Argument
import Unary.Proofs.Numerals

/-!
Cells made in any order, and the numbers that they stand for.

Registers hold the cells that are made one after another. Every cell wraps an older one, and what is made later
leaves it as it is, so each walk ends at the one cell that is zero. Two walks side by side tell whether two cells
stand for one number, also if they stop where the cells become one.
-/

namespace Unary

namespace Store

variable {s s' s'' : Store} {a b cell inner : Nat}

/-- Every cell wraps an older one. -/
def Ordered (s : Store) : Prop :=
  ∀ cell inner, s.pred? cell = some inner → inner < cell

/-- The cell to which `n` steps lead, each from a cell to the one that it wraps. -/
def walk (s : Store) : Nat → Nat → Option Nat
  | 0, cell => some cell
  | n + 1, cell => (s.pred? cell).bind (s.walk n)

/-- How two cells are compared, step by step. One cell is the same number as itself, zero is the number of a
cell that wraps none, a cell that wraps one is no cell that wraps none, and else the wrapped cells decide. -/
inductive Compares (s : Store) : Nat → Nat → Bool → Prop
  | same (a : Nat) : Compares s a a true
  | zero {a b : Nat} : a ≠ b → s.pred? a = none → Compares s a b (s.pred? b).isNone
  | stop {a b a' : Nat} : a ≠ b → s.pred? a = some a' → s.pred? b = none → Compares s a b false
  | step {a b a' b' : Nat} {answer : Bool} : a ≠ b → s.pred? a = some a' → s.pred? b = some b' →
      Compares s a' b' answer → Compares s a b answer

theorem exists_pred? (h : cell ≤ s.wrapped.size) (hne : cell ≠ zero) : ∃ inner, s.pred? cell = some inner := by
  cases cell with
  | zero => exact absurd rfl hne
  | succ cell => exact ⟨s.wrapped[cell], Array.getElem?_eq_getElem h⟩

theorem eq_zero_of_pred?_eq_none (hle : cell ≤ s.wrapped.size) (hp : s.pred? cell = none) : cell = zero := by
  by_contra hne
  obtain ⟨inner, hinner⟩ := exists_pred? hle hne
  cases hp.symm.trans hinner

theorem le_size_of_pred? (h : s.pred? cell = some inner) : cell ≤ s.wrapped.size := by
  cases cell with
  | zero => exact Nat.zero_le _
  | succ cell => exact (Array.getElem?_eq_some_iff.mp h).1

theorem countFrom_eq (s : Store) (count cell : Nat) : s.countFrom count cell = count + s.toNat cell := by
  induction cell using Nat.strong_induction_on generalizing count with
  | _ cell ih =>
    rw [toNat, countFrom, countFrom]
    cases hp : s.pred? cell with
    | none => rfl
    | some inner =>
      by_cases hlt : inner < cell
      · simp only [if_pos hlt]
        rw [ih inner hlt, ih inner hlt (0 + 1)]
        omega
      · simp only [if_neg hlt, Nat.add_zero]

theorem toNat_zero (s : Store) : s.toNat zero = 0 :=
  countFrom_zero s 0

theorem Ordered.toNat_of_pred? (h : s.Ordered) (hp : s.pred? cell = some inner) :
    s.toNat cell = s.toNat inner + 1 := by
  rw [toNat, countFrom, hp]
  simp only [if_pos (h cell inner hp)]
  rw [countFrom_eq]
  omega

/-- Only the cell that is zero stands for zero. -/
theorem Ordered.toNat_eq_zero_iff (h : s.Ordered) (hle : cell ≤ s.wrapped.size) :
    s.toNat cell = 0 ↔ cell = zero := by
  constructor
  · intro hcount
    by_contra hne
    obtain ⟨inner, hp⟩ := exists_pred? hle hne
    rw [h.toNat_of_pred? hp] at hcount
    cases hcount
  · rintro rfl
    exact s.toNat_zero

theorem Ordered.le_size (h : s.Ordered) (hp : s.pred? cell = some inner) : inner ≤ s.wrapped.size :=
  (Nat.le_of_lt (h cell inner hp)).trans (le_size_of_pred? hp)

/-- A walk from a cell comes to zero after as many steps as the number of the cell, and only then. -/
theorem Ordered.walk_eq_zero_iff (h : s.Ordered) (hle : cell ≤ s.wrapped.size) (n : Nat) :
    s.walk n cell = some zero ↔ n = s.toNat cell := by
  induction n generalizing cell with
  | zero => rw [walk, Option.some.injEq, eq_comm (a := 0), h.toNat_eq_zero_iff hle]
  | succ n ih =>
    rw [walk]
    cases hp : s.pred? cell with
    | none =>
      rw [eq_zero_of_pred?_eq_none hle hp, toNat_zero]
      simp
    | some inner =>
      rw [Option.bind_some, ih (h.le_size hp), h.toNat_of_pred? hp, Nat.add_right_cancel_iff]

/-- A comparison has one answer. -/
theorem Compares.unique {answer answer' : Bool} (h : s.Compares a b answer) (h' : s.Compares a b answer') :
    answer = answer' := by
  induction h with
  | same a => cases h' <;> simp_all
  | zero hne hp => cases h' <;> simp_all
  | stop hne hp hq => cases h' <;> simp_all
  | step hne hp hq _ ih => cases h' <;> simp_all

/-- The comparison of two cells ends with the answer of `eq`, which is whether they stand for one number. -/
theorem Ordered.compares (h : s.Ordered) (ha : a ≤ s.wrapped.size) (hb : b ≤ s.wrapped.size) :
    s.Compares a b (s.eq a b) ∧ (s.eq a b = true ↔ s.toNat a = s.toNat b) := by
  -- Both walks move together, so it is enough that the first one falls.
  induction a using Nat.strong_induction_on generalizing b with
  | _ a ih =>
    rw [eq]
    by_cases hab : a = b
    · subst hab
      rw [if_pos rfl]
      exact ⟨.same a, by simp⟩
    rw [if_neg hab]
    cases hpa : s.pred? a with
    | none =>
      have hzero := eq_zero_of_pred?_eq_none ha hpa
      obtain ⟨b', hpb⟩ := exists_pred? hb fun hne => hab (hzero.trans hne.symm)
      have hcompares := Compares.zero hab hpa
      rw [hpb] at hcompares
      refine ⟨hcompares, ?_⟩
      rw [hzero, toNat_zero, h.toNat_of_pred? hpb]
      simp
    | some a' =>
      cases hpb : s.pred? b with
      | none =>
        refine ⟨.stop hab hpa hpb, ?_⟩
        rw [eq_zero_of_pred?_eq_none hb hpb, toNat_zero, h.toNat_of_pred? hpa]
        simp
      | some b' =>
        have hlt := h a a' hpa
        obtain ⟨hcompares, hiff⟩ := ih a' hlt (h.le_size hpa) (h.le_size hpb)
        simp only [if_pos hlt]
        refine ⟨.step hab hpa hpb hcompares, ?_⟩
        rw [hiff, h.toNat_of_pred? hpa, h.toNat_of_pred? hpb, Nat.add_right_cancel_iff]

/-- A store with more cells than another, the older ones as they are. -/
structure Extends (s s' : Store) : Prop where
  size_le : s.wrapped.size ≤ s'.wrapped.size
  pred?_eq : ∀ cell ≤ s.wrapped.size, s'.pred? cell = s.pred? cell

theorem Extends.refl (s : Store) : s.Extends s :=
  ⟨Nat.le_refl _, fun _ _ => rfl⟩

theorem Extends.trans (h : s.Extends s') (h' : s'.Extends s'') : s.Extends s'' where
  size_le := h.size_le.trans h'.size_le
  pred?_eq cell hle := (h'.pred?_eq cell (hle.trans h.size_le)).trans (h.pred?_eq cell hle)

theorem size_succ (s : Store) (cell : Nat) : (s.succ cell).1.wrapped.size = s.wrapped.size + 1 :=
  Array.size_push ..

theorem pred?_succ_fresh (s : Store) (cell : Nat) :
    (s.succ cell).1.pred? (s.wrapped.size + 1) = some cell := by
  simp [pred?, succ]

theorem extends_succ (s : Store) (cell : Nat) : s.Extends (s.succ cell).1 where
  size_le := by
    rw [size_succ]
    exact Nat.le_succ _
  pred?_eq _ hle := s.pred?_addSucc cell 1 hle

theorem Ordered.succ (h : s.Ordered) (hle : cell ≤ s.wrapped.size) : (s.succ cell).1.Ordered := by
  intro outer inner hp
  have houter := le_size_of_pred? hp
  rw [size_succ] at houter
  rcases Nat.lt_or_eq_of_le houter with hold | rfl
  · rw [(s.extends_succ cell).pred?_eq outer (Nat.le_of_lt_succ hold)] at hp
    exact h outer inner hp
  · rw [pred?_succ_fresh] at hp
    cases hp
    exact Nat.lt_succ_of_le hle

/-- What a store is after cells were made in it: an ordered one that has the new cell. -/
structure Makes (s : Store) (made : Store × Nat) : Prop where
  grown : s.Extends made.1
  ordered : made.1.Ordered
  made_le : made.2 ≤ made.1.wrapped.size

theorem Ordered.makes_succ (h : s.Ordered) (hle : cell ≤ s.wrapped.size) : s.Makes (s.succ cell) :=
  ⟨s.extends_succ cell, h.succ hle, (size_succ s cell).ge⟩

theorem Ordered.makes_addSucc (h : s.Ordered) (hle : cell ≤ s.wrapped.size) (n : Nat) :
    s.Makes (s.addSucc cell n) := by
  induction n generalizing s cell with
  | zero => exact ⟨.refl s, h, hle⟩
  | succ n ih =>
    have hfirst := h.makes_succ hle
    have hrest := ih hfirst.ordered hfirst.made_le
    exact ⟨hfirst.grown.trans hrest.grown, hrest.ordered, hrest.made_le⟩

end Store

/-- What can be done with registers that hold cells. -/
inductive Registers.Move
  | number (value : Argument)
  | zero
  | succ (register : Nat)
  | pred (register : Nat)

/-- A store, and registers that hold its cells in the order in which they were made. -/
structure Registers where
  store : Store
  cells : List Nat

namespace Registers

def start : Registers := ⟨.empty, []⟩

/-- The number that cells are made for. A number that is ready is refused here, as is every value that stands
for none. -/
def number? : Argument → Option Nat
  | .nat _ => none
  | value => value.toNat.toOption

/-- The cell that a move makes or finds, and the store with it. Zero wraps no cell, and a register that is not
there holds none. -/
def make? (m : Registers) : Move → Option (Store × Nat)
  | .number value => (number? value).map m.store.ofNat
  | .zero => some (m.store, Store.zero)
  | .succ r => m.cells[r]?.map m.store.succ
  | .pred r => (m.cells[r]?.bind m.store.pred?).map fun cell => (m.store, cell)

/-- A move puts its cell in a new register, if it has one. -/
def perform (m : Registers) (move : Move) : Registers :=
  match m.make? move with
  | none => m
  | some (store, cell) => ⟨store, m.cells ++ [cell]⟩

/-- The registers after some moves. -/
def after (m : Registers) (moves : List Move) : Registers :=
  moves.foldl perform m

/-- Every cell wraps an older one, and the registers hold cells of the store. -/
structure Sound (m : Registers) : Prop where
  ordered : m.store.Ordered
  cells_le : ∀ cell ∈ m.cells, cell ≤ m.store.wrapped.size

variable {m : Registers} {r cell : Nat}

theorem Sound.le_size (h : m.Sound) (hr : m.cells[r]? = some cell) : cell ≤ m.store.wrapped.size :=
  h.cells_le cell (List.mem_of_getElem? hr)

theorem sound_start : start.Sound where
  ordered _ _ hp := by
    have hle := Store.le_size_of_pred? hp
    cases Nat.le_zero.mp hle
    cases hp
  cells_le _ hmem := by cases hmem

theorem Sound.makes (h : m.Sound) {move : Move} {made : Store × Nat} (hmade : m.make? move = some made) :
    m.store.Makes made := by
  cases move with
  | number value =>
    obtain ⟨n, -, rfl⟩ := Option.map_eq_some_iff.mp hmade
    exact h.ordered.makes_addSucc (Nat.zero_le _) n
  | zero =>
    cases hmade
    exact ⟨.refl _, h.ordered, Nat.zero_le _⟩
  | succ r =>
    obtain ⟨cell, hr, rfl⟩ := Option.map_eq_some_iff.mp hmade
    exact h.ordered.makes_succ (h.le_size hr)
  | pred r =>
    obtain ⟨inner, hp, rfl⟩ := Option.map_eq_some_iff.mp hmade
    obtain ⟨cell, -, hp⟩ := Option.bind_eq_some_iff.mp hp
    exact ⟨.refl _, h.ordered, h.ordered.le_size hp⟩

/-- A move keeps registers sound, and leaves what was made before it as it is. -/
theorem Sound.perform (h : m.Sound) (move : Move) :
    (m.perform move).Sound ∧ m.store.Extends (m.perform move).store ∧ m.cells <+: (m.perform move).cells := by
  rw [Registers.perform]
  split
  next => exact ⟨h, .refl _, List.prefix_refl _⟩
  next store cell hmade =>
    have hmakes := h.makes hmade
    refine ⟨⟨hmakes.ordered, fun cell' hmem => ?_⟩, hmakes.grown, List.prefix_append _ _⟩
    rcases List.mem_append.mp hmem with hold | hnew
    · exact (h.cells_le cell' hold).trans hmakes.grown.size_le
    · cases List.mem_singleton.mp hnew
      exact hmakes.made_le

theorem Sound.after (h : m.Sound) (moves : List Move) :
    (m.after moves).Sound ∧ m.store.Extends (m.after moves).store ∧ m.cells <+: (m.after moves).cells := by
  induction moves generalizing m with
  | nil => exact ⟨h, .refl _, List.prefix_refl _⟩
  | cons move moves ih =>
    obtain ⟨hsound, hgrown, hcells⟩ := h.perform move
    obtain ⟨hsound', hgrown', hcells'⟩ := ih hsound
    exact ⟨hsound', hgrown.trans hgrown', hcells.trans hcells'⟩

theorem after_append (m : Registers) (moves moves' : List Move) :
    m.after (moves ++ moves') = (m.after moves).after moves' :=
  List.foldl_append

/-- The cell that is made around a cell wraps it ever after. -/
theorem Sound.exists_pred? (h : m.Sound) (hr : m.cells[r]? = some cell) (later : List Move) :
    ∃ outer, ((m.perform (.succ r)).after later).cells[m.cells.length]? = some outer ∧
      ((m.perform (.succ r)).after later).store.pred? outer = some cell := by
  have hperform : m.perform (.succ r) = ⟨(m.store.succ cell).1, m.cells ++ [m.store.wrapped.size + 1]⟩ := by
    rw [Registers.perform, make?, hr]
    rfl
  obtain ⟨-, hgrown, rest, hcells⟩ := (h.perform (.succ r)).1.after later
  rw [hperform] at hgrown hcells ⊢
  refine ⟨m.store.wrapped.size + 1, ?_, ?_⟩
  · rw [← hcells]
    simp
  · rw [hgrown.pred?_eq _ (m.store.size_succ cell).ge]
    exact m.store.pred?_succ_fresh cell

/-- Whatever was done with registers, the cell of each is a number. A walk from it comes to zero after as many
steps as its number, and only then. The comparison of two cells ends, and it answers that they are equal exactly
if they stand for one number, as their hash keys do. One cell is equal to itself, only the cell that is zero
stands for zero, and a cell made around another wraps that very cell, whatever is done later. -/
theorem sound_after (moves : List Move) (r q a b : Nat) (hr : (start.after moves).cells[r]? = some a)
    (hq : (start.after moves).cells[q]? = some b) :
    let s := (start.after moves).store
    (∀ n, s.walk n a = some Store.zero ↔ n = s.toNat a) ∧
    (∀ answer, s.Compares a b answer ↔ answer = s.eq a b) ∧
    (s.eq a b = true ↔ s.toNat a = s.toNat b) ∧
    (s.hashKey a = s.hashKey b ↔ s.toNat a = s.toNat b) ∧
    (Store.same a b = true → s.eq a b = true) ∧
    (Store.same a Store.zero = true ↔ s.toNat a = 0) ∧
    ∀ later, ∃ outer,
      (start.after (moves ++ .succ r :: later)).cells[(start.after moves).cells.length]? = some outer ∧
      (start.after (moves ++ .succ r :: later)).store.pred? outer = some a := by
  intro s
  have hsound := (sound_start.after moves).1
  have ha := hsound.le_size hr
  obtain ⟨hcompares, heq⟩ := hsound.ordered.compares ha (hsound.le_size hq)
  refine ⟨hsound.ordered.walk_eq_zero_iff ha, fun answer => ?_, heq, Iff.rfl, fun hsame => ?_, ?_, fun later => ?_⟩
  · constructor
    · exact fun h => h.unique hcompares
    · rintro rfl
      exact hcompares
  · rw [heq, beq_iff_eq.mp hsame]
  · rw [Store.same, beq_iff_eq, hsound.ordered.toNat_eq_zero_iff ha]
  · rw [after_append]
    exact hsound.exists_pred? hr later

/-- Two cells around one, and cells of their own for the same number, among moves that make none. -/
theorem sound_after_shared :
    let moves : List Move := [.number (.int 1), .number (.int (-1)), .succ 0, .succ 0, .number (.int 2),
      .pred 9, .zero, .pred 5, .pred 3]
    let m := start.after moves
    m.cells = [1, 2, 3, 5, 0, 4] ∧ m.store.walk 2 3 = some Store.zero ∧ m.store.Compares 2 3 true ∧
      m.store.Compares 5 4 false ∧ m.store.hashKey 3 = m.store.hashKey 5 ∧
      (start.after (moves ++ [.succ 1, .zero])).store.pred? 6 = some 2 := by
  intro moves m
  have hcells : m.cells = [1, 2, 3, 5, 0, 4] := by decide +kernel
  have hcell (r a : Nat) (h : [1, 2, 3, 5, 0, 4][r]? = some a) : m.cells[r]? = some a := hcells ▸ h
  obtain ⟨-, hshared, -, -, -, -, hlater⟩ := sound_after moves 1 2 2 3 (hcell 1 2 rfl) (hcell 2 3 rfl)
  obtain ⟨-, hapart, -, -, -, -, -⟩ := sound_after moves 3 5 5 4 (hcell 3 5 rfl) (hcell 5 4 rfl)
  obtain ⟨hwalk, -, -, hhash, -, -, -⟩ := sound_after moves 2 3 3 5 (hcell 2 3 rfl) (hcell 3 5 rfl)
  obtain ⟨outer, houter, hpred⟩ := hlater [.zero]
  refine ⟨hcells, (hwalk 2).mpr (by decide +kernel), (hshared true).mpr (by decide +kernel),
    (hapart false).mpr (by decide +kernel), hhash.mpr (by decide +kernel), ?_⟩
  have hsix : outer = 6 := by
    rw [show (start.after moves).cells.length = 6 by decide +kernel] at houter
    refine Option.some.inj (houter.symm.trans ?_)
    decide +kernel
  rwa [hsix] at hpred

end Registers

end Unary
