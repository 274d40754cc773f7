import Mathlib.Data.List.Perm.Basic

/-!
# Reductions in any order

An operation that may be reordered and regrouped, with a start that it absorbs, and what is left
of a list when it is folded: over a permutation, over parts, over lanes side by side and over
registers of lanes that are combined at the end. The start need not be neutral for every value,
as the largest number is not for `min`.
-/

namespace Hisab.Base

open List

universe u

/-- An associative and commutative operation, with a start. -/
structure Reduction (V : Type u) where
  op : V → V → V
  start : V
  comm : ∀ a b, op a b = op b a
  assoc : ∀ a b c, op (op a b) c = op a (op b c)
  start_op_start : op start start = start

namespace Reduction

variable {V : Type u} (r : Reduction V)

/-- What is left of a list. -/
def total (l : List V) : V := l.foldl r.op r.start

/-- What is left of lanes without a start of their own. -/
def horizontal : List V → V
  | [] => r.start
  | a :: l => l.foldl r.op a

/-- One register from several. -/
def combine : List (List V) → List V
  | [] => []
  | reg :: regs => regs.foldl (List.zipWith r.op) reg

theorem left_comm (a b c : V) : r.op a (r.op b c) = r.op b (r.op a c) := by
  rw [← r.assoc, r.comm a b, r.assoc]

theorem foldl_op (l : List V) (a b : V) : l.foldl r.op (r.op a b) = r.op a (l.foldl r.op b) := by
  induction l generalizing b with
  | nil => rfl
  | cons x l ih => rw [foldl_cons, foldl_cons, r.assoc, ih]

@[simp] theorem total_nil : r.total [] = r.start := rfl

theorem total_cons (a : V) (l : List V) : r.total (a :: l) = r.op a (r.total l) := by
  rw [total, total, foldl_cons, r.comm, foldl_op]

/-- The start is absorbed. -/
theorem op_total_start (l : List V) : r.op (r.total l) r.start = r.total l := by
  rw [r.comm, total, ← foldl_op, r.start_op_start]

theorem total_append (l m : List V) : r.total (l ++ m) = r.op (r.total l) (r.total m) := by
  induction l with
  | nil => rw [nil_append, total_nil, r.comm, op_total_start]
  | cons a l ih => rw [cons_append, total_cons, total_cons, ih, r.assoc]

/-- The order does not matter. -/
theorem total_perm {l m : List V} (h : l.Perm m) : r.total l = r.total m := by
  induction h with
  | nil => rfl
  | cons a _ ih => rw [total_cons, total_cons, ih]
  | swap a b l => rw [total_cons, total_cons, total_cons, total_cons, r.left_comm]
  | trans _ _ ih₁ ih₂ => exact ih₁.trans ih₂

theorem total_replicate (n : Nat) : r.total (List.replicate n r.start) = r.start := by
  induction n with
  | zero => rfl
  | succ n ih => rw [replicate_succ, total_cons, ih, r.start_op_start]

/-- One more value at the end. -/
theorem op_total (l : List V) (a : V) : r.op (r.total l) a = r.total (l ++ [a]) := by
  rw [total_append, total_cons, total_nil, r.comm a, ← r.assoc, op_total_start]

/-- Lanes are combined one by one. -/
theorem total_zipWith {l m : List V} (h : l.length = m.length) :
    r.total (List.zipWith r.op l m) = r.op (r.total l) (r.total m) := by
  induction l generalizing m with
  | nil =>
    have hm : m = [] := eq_nil_of_length_eq_zero h.symm
    rw [hm]
    exact r.start_op_start.symm
  | cons a l ih =>
    cases m with
    | nil => cases h
    | cons b m =>
      have hlen : l.length = m.length := Nat.succ.inj h
      rw [zipWith_cons_cons, total_cons, total_cons, total_cons, ih hlen, r.assoc, r.assoc,
        r.left_comm b]

/-- The lanes add to what is there already. -/
theorem op_horizontal (l m : List V) : r.op (r.total l) (r.horizontal m) = r.total (l ++ m) := by
  rw [total_append]
  cases m with
  | nil => rfl
  | cons a m => rw [horizontal, total, total, foldl_cons, foldl_op, ← r.assoc, ← total,
      op_total_start]

/-! ### Registers -/

/-- `packet` registers of `length` lanes. -/
structure Shaped (packet length : Nat) (regs : List (List V)) : Prop where
  registers : regs.length = packet
  lanes : ∀ reg ∈ regs, reg.length = length

variable {packet length : Nat} {regs temps : List (List V)} {temp : List V}

theorem shaped_replicate (a : V) :
    Shaped packet length (List.replicate packet (List.replicate length a)) where
  registers := length_replicate
  lanes reg hreg := by rw [eq_of_mem_replicate hreg, length_replicate]

theorem total_flatten_replicate :
    r.total (List.replicate packet (List.replicate length r.start)).flatten = r.start := by
  rw [flatten_replicate_replicate, total_replicate]

/-- Registers are combined one by one. -/
theorem total_zipWith_zipWith {packet : Nat} {temps : List (List V)}
    (hregs : Shaped packet length regs) (htemps : Shaped packet length temps) :
    r.total (List.zipWith (List.zipWith r.op) regs temps).flatten =
      r.op (r.total regs.flatten) (r.total temps.flatten) := by
  induction regs generalizing temps packet with
  | nil =>
    have hz : temps = [] := eq_nil_of_length_eq_zero (htemps.registers.trans hregs.registers.symm)
    rw [hz]
    exact r.start_op_start.symm
  | cons reg regs ih =>
    cases temps with
    | nil => cases hregs.registers.trans htemps.registers.symm
    | cons temp temps =>
      have hlen : reg.length = temp.length :=
        (hregs.lanes reg (by simp)).trans (htemps.lanes temp (by simp)).symm
      have hregs' : Shaped regs.length length regs := ⟨rfl, fun x hx ↦ hregs.lanes x (by simp [hx])⟩
      have htemps' : Shaped regs.length length temps :=
        ⟨Nat.succ.inj (htemps.registers.trans hregs.registers.symm),
          fun x hx ↦ htemps.lanes x (by simp [hx])⟩
      have hrest := ih hregs' htemps'
      rw [zipWith_cons_cons, flatten_cons, flatten_cons, flatten_cons,
        total_append, total_append, total_append, hrest, r.total_zipWith hlen, r.assoc, r.assoc,
        r.left_comm (r.total temp)]

theorem shaped_zipWith_zipWith (hregs : Shaped packet length regs)
    (htemps : Shaped packet length temps) :
    Shaped packet length (List.zipWith (List.zipWith r.op) regs temps) where
  registers := by rw [length_zipWith, hregs.registers, htemps.registers, Nat.min_self]
  lanes reg hreg := by
    obtain ⟨i, hi, rfl⟩ := mem_iff_getElem.mp hreg
    rw [getElem_zipWith, length_zipWith, hregs.lanes _ (getElem_mem _),
      htemps.lanes _ (getElem_mem _), Nat.min_self]

/-- Only the first register takes part. -/
theorem total_modifyHead (hregs : Shaped packet length regs) (hpacket : 0 < packet)
    (htemp : temp.length = length) :
    r.total (regs.modifyHead (List.zipWith r.op · temp)).flatten =
      r.op (r.total regs.flatten) (r.total temp) := by
  cases regs with
  | nil =>
    have := hregs.registers
    rw [length_nil] at this
    omega
  | cons reg regs =>
    have hlen : reg.length = temp.length := (hregs.lanes reg (by simp)).trans htemp.symm
    rw [modifyHead_cons, flatten_cons, flatten_cons, total_append, total_append,
      r.total_zipWith hlen, r.assoc, r.assoc, r.comm (r.total temp)]

theorem shaped_modifyHead (hregs : Shaped packet length regs) (htemp : temp.length = length) :
    Shaped packet length (regs.modifyHead (List.zipWith r.op · temp)) := by
  cases regs with
  | nil => exact hregs
  | cons reg regs =>
    refine ⟨hregs.registers, fun x hx ↦ ?_⟩
    rw [modifyHead_cons, mem_cons] at hx
    cases hx with
    | inl hx => rw [hx, length_zipWith, hregs.lanes reg (by simp), htemp, Nat.min_self]
    | inr hx => exact hregs.lanes x (by simp [hx])

/-- The combined register has the total of all. -/
theorem total_combine (hregs : Shaped packet length regs) :
    r.total (r.combine regs) = r.total regs.flatten := by
  cases regs with
  | nil => rfl
  | cons reg regs =>
    rw [combine, flatten_cons, total_append]
    have hlen : reg.length = length := hregs.lanes reg (by simp)
    have hrest : ∀ x ∈ regs, x.length = length := fun x hx ↦ hregs.lanes x (by simp [hx])
    clear hregs
    induction regs generalizing reg with
    | nil => rw [foldl_nil, flatten_nil, total_nil, op_total_start]
    | cons reg' regs ih =>
      have hlen' : reg'.length = length := hrest reg' (by simp)
      have hzip : (zipWith r.op reg reg').length = length := by
        rw [length_zipWith, hlen, hlen', Nat.min_self]
      rw [foldl_cons, ih _ hzip (fun x hx ↦ hrest x (by simp [hx])),
        r.total_zipWith (hlen.trans hlen'.symm), flatten_cons, total_append, r.assoc]

/-- What is there already, and all the registers. -/
theorem op_horizontal_combine (l : List V) (hregs : Shaped packet length regs) :
    r.op (r.total l) (r.horizontal (r.combine regs)) = r.total (l ++ regs.flatten) := by
  rw [op_horizontal, total_append, total_append, r.total_combine hregs]

end Reduction
end Hisab.Base
