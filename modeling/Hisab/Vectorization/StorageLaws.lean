import Hisab.Vectorization.TensorStorage

/-!
# Storage

What allocation, release and writes do to the buffers and to the counts of their releases.
-/

namespace Hisab.Vectorization

open Hisab.Base Function

variable {α : Type} {h h' : Heap α} {p : Pointer} {b n : Nat} {buffer : Buffer α} {x : α}

namespace Heap

/-- How often a buffer that is not the caller's was freed. -/
def frees (h : Heap α) (b : Nat) : Option Nat :=
  ((h.buffers b).filter fun buffer ↦ !buffer.external).map Buffer.frees

/-- The buffers allocated so far are those below `next`. -/
def Bounded (h : Heap α) : Prop := ∀ b, h.next ≤ b → h.buffers b = none

theorem frees_eq_some : h.frees b = some n ↔
    ∃ buffer, h.buffers b = some buffer ∧ buffer.external = false ∧ buffer.frees = n := by
  simp [frees, and_assoc]

theorem frees_congr (hb : h.buffers b = h'.buffers b) : h.frees b = h'.frees b := by
  rw [frees, frees, hb]

theorem live_congr (hb : h.buffers b = h'.buffers b) : h.live b = h'.live b := by
  rw [live, live, hb]

theorem live_eq_some : h.live b = some buffer ↔ h.buffers b = some buffer ∧ buffer.frees = 0 := by
  simp [live]

/-- A buffer of the program is live until it is freed. -/
theorem live_eq_none_of_frees (hn : h.frees b = some (n + 1)) : h.live b = none := by
  obtain ⟨buffer, hbuffer, -, hfrees⟩ := frees_eq_some.mp hn
  rw [live, hbuffer]
  simp [hfrees]

theorem live_of_frees (hn : h.frees b = some 0) : ∃ buffer, h.live b = some buffer := by
  obtain ⟨buffer, hbuffer, -, hfrees⟩ := frees_eq_some.mp hn
  exact ⟨buffer, live_eq_some.mpr ⟨hbuffer, hfrees⟩⟩

/-- A read inside a live buffer. -/
theorem read_add (off : Nat) (hlive : h.live p.buffer = some buffer)
    (hoff : p.offset + off < buffer.length) (hsize : buffer.length < SizeT.modulus) :
    h.read (p.add off) = .ok (buffer.cells (p.offset + off)) := by
  have hadd : (p.add off).offset = p.offset + off := SizeT.add_eq (by omega)
  rw [read, Pointer.add_buffer, hlive]
  simp only [hadd, if_pos hoff]

theorem Bounded.frees_next (hb : h.Bounded) : h.frees h.next = none := by
  rw [frees, hb h.next (le_refl _)]
  rfl

/-- Allocations stay, with their lengths. -/
def Extends (h h' : Heap α) : Prop := ∀ b buffer, h.buffers b = some buffer →
  ∃ buffer', h'.buffers b = some buffer' ∧ buffer'.length = buffer.length

theorem Extends.refl (h : Heap α) : h.Extends h := fun _ buffer hb ↦ ⟨buffer, hb, rfl⟩

theorem Extends.trans {h'' : Heap α} (h₁ : h.Extends h') (h₂ : h'.Extends h'') : h.Extends h'' := by
  intro b buffer hb
  obtain ⟨buffer', hb', hlength'⟩ := h₁ b buffer hb
  obtain ⟨buffer'', hb'', hlength''⟩ := h₂ b buffer' hb'
  exact ⟨buffer'', hb'', hlength''.trans hlength'⟩

/-! ### Allocation -/

@[simp] theorem insert_buffers_next : (h.insert buffer).buffers h.next = some buffer :=
  update_self ..

theorem insert_buffers_of_ne (hne : b ≠ h.next) : (h.insert buffer).buffers b = h.buffers b :=
  update_of_ne hne _ _

theorem Bounded.insert (hb : h.Bounded) : (h.insert buffer).Bounded := by
  intro b hle
  have hle : h.next + 1 ≤ b := hle
  rw [insert_buffers_of_ne (by omega)]
  exact hb b (by omega)

theorem Bounded.extends_insert (hb : h.Bounded) : h.Extends (h.insert buffer) := by
  intro b buffer' hbuffer
  refine ⟨buffer', ?_, rfl⟩
  rwa [insert_buffers_of_ne]
  intro heq
  rw [heq, hb h.next (le_refl _)] at hbuffer
  cases hbuffer

theorem frees_insert_external (hb : h.Bounded) (hext : buffer.external = true) :
    (h.insert buffer).frees = h.frees := by
  funext b
  by_cases heq : b = h.next
  · subst heq
    rw [hb.frees_next, frees]
    simp [hext]
  · exact frees_congr (insert_buffers_of_ne heq)

theorem frees_insert (hext : buffer.external = false) :
    (h.insert buffer).frees = update h.frees h.next (some buffer.frees) := by
  funext b
  by_cases heq : b = h.next
  · subst heq
    rw [update_self]
    exact frees_eq_some.mpr ⟨buffer, insert_buffers_next, hext, rfl⟩
  · rw [update_of_ne heq]
    exact frees_congr (insert_buffers_of_ne heq)

/-! ### Release -/

@[simp] theorem free_buffers_self : (h.free p).buffers p.buffer =
    (h.buffers p.buffer).map fun buffer ↦ { buffer with frees := buffer.frees + 1 } :=
  update_self ..

theorem free_buffers_of_ne (hne : b ≠ p.buffer) : (h.free p).buffers b = h.buffers b :=
  update_of_ne hne _ _

theorem Bounded.free (hb : h.Bounded) : (h.free p).Bounded := by
  intro b hle
  by_cases heq : b = p.buffer
  · subst heq
    rw [free_buffers_self, hb _ hle]
    rfl
  · rw [free_buffers_of_ne heq]
    exact hb b hle

theorem frees_free (hn : h.frees p.buffer = some n) :
    (h.free p).frees = update h.frees p.buffer (some (n + 1)) := by
  funext b
  by_cases heq : b = p.buffer
  · subst heq
    obtain ⟨buffer, hbuffer, hext, hfrees⟩ := frees_eq_some.mp hn
    rw [update_self]
    refine frees_eq_some.mpr ⟨{ buffer with frees := buffer.frees + 1 }, ?_, hext, ?_⟩
    · rw [free_buffers_self, hbuffer]
      rfl
    · rw [hfrees]
  · rw [update_of_ne heq]
    exact frees_congr (free_buffers_of_ne heq)

/-! ### Writes -/

/-- A write changes one element of a live buffer. -/
theorem write_eq_ok (hw : h.write p x = .ok h') :
    ∃ buffer, h.live p.buffer = some buffer ∧ h'.next = h.next ∧
      h'.buffers = update h.buffers p.buffer
        (some { buffer with cells := update buffer.cells p.offset x }) := by
  rw [write] at hw
  cases hlive : h.live p.buffer with
  | none =>
    rw [hlive] at hw
    cases hw
  | some buffer =>
    rw [hlive] at hw
    dsimp only at hw
    split at hw
    next =>
      cases hw
      exact ⟨buffer, rfl, rfl, rfl⟩
    next => cases hw

theorem Bounded.write (hb : h.Bounded) (hw : h.write p x = .ok h') : h'.Bounded := by
  obtain ⟨buffer, hlive, hnext, hbuffers⟩ := write_eq_ok hw
  intro b hle
  rw [hnext] at hle
  have hne : b ≠ p.buffer := fun heq ↦ by
    have := (live_eq_some.mp hlive).1
    rw [← heq, hb b hle] at this
    cases this
  rw [hbuffers, update_of_ne hne]
  exact hb b hle

theorem frees_write (hw : h.write p x = .ok h') : h'.frees = h.frees := by
  obtain ⟨buffer, hlive, -, hbuffers⟩ := write_eq_ok hw
  funext b
  by_cases heq : b = p.buffer
  · subst heq
    rw [frees, frees, hbuffers, update_self, (live_eq_some.mp hlive).1]
    obtain ⟨length, cells, frees, external⟩ := buffer
    cases external <;> rfl
  · refine frees_congr ?_
    rw [hbuffers, update_of_ne heq]

end Heap

end Hisab.Vectorization
