import Hisab.Base.Fallible
import Mathlib

/-!
# Packed sizes and strides

`sizes_and_strides` (`terminals/sizes_and_strides.h:38–369`, `sizes_and_strides.cpp:6–79`): up to
five sizes and five strides stand in the object, more stand one after the other in a block that it
owns. The first inline word is shared with the pointer to that block; an object whose size is
above five is known by its block, and the pointer's value is left out.
-/

namespace Hisab.Vectorization.Packed

open Hisab.Base List

/-- Words one after the other. -/
structure Words where
  length : Nat
  word : Nat → Int64

/-- The object: `inlineStorage_` has ten words. -/
structure SizesAndStrides where
  size : Nat
  inlineStorage : Nat → Int64
  outOfLineStorage : Words

/-- The words of new memory, or none when the allocation fails. -/
abbrev Fresh := Option (Nat → Int64)

/-- An access outside an object ends without a result; an exception leaves the object behind. -/
abbrev SizesAndStrides.Result := Except (Option SizesAndStrides)

namespace SizesAndStrides

def maxInlineSize : Nat := 5

/-! ### Memory -/

def malloc (fresh : Fresh) (bytes : Nat) : Option Words := fresh.map fun word ↦ ⟨bytes / 8, word⟩

def realloc (fresh : Fresh) (block : Words) (bytes : Nat) : Option Words :=
  fresh.map fun word ↦ ⟨bytes / 8, fun i ↦ if i < block.length then block.word i else word i⟩

/-- `n` words of the source from `start` on, written at `pos`; `memmove` does the same. -/
def memcpy (dst : Words) (pos : Nat) (src : Words) (start n : Nat) : Result Words :=
  if pos + n ≤ dst.length ∧ start + n ≤ src.length then
    pure { dst with word := fun i ↦
      if pos ≤ i ∧ i < pos + n then src.word (start + (i - pos)) else dst.word i }
  else throw none

/-- Zeros over `n` words, whose bytes are counted in a `size_t`. -/
def memset (dst : Words) (pos n : Nat) : Result Words :=
  memcpy dst pos ⟨n * 8 % 2 ^ 64 / 8, fun _ ↦ 0⟩ 0 (n * 8 % 2 ^ 64 / 8)

/-- `storageBytes`, in a `size_t`. -/
def storageBytes (size : Nat) : Nat := size * 2 * 8 % 2 ^ 64

/-! ### The class -/

/-- The constructor without arguments. -/
def new : SizesAndStrides where
  size := 1
  inlineStorage i := if i = maxInlineSize then 1 else 0
  outOfLineStorage := ⟨0, fun _ ↦ 0⟩

variable (fresh : Fresh) (o rhs : SizesAndStrides)

def isInline : Bool := o.size ≤ maxInlineSize

def inlineWords : Words := ⟨2 * maxInlineSize, o.inlineStorage⟩

/-- Frees the block, or gives it away. -/
def release : SizesAndStrides := { o with outOfLineStorage := ⟨0, fun _ ↦ 0⟩ }

/-- Stores a null pointer, over the first inline word. -/
def setNull : SizesAndStrides :=
  { o.release with inlineStorage := fun i ↦ if i = 0 then 0 else o.inlineStorage i }

def copyDataInline : SizesAndStrides := { o with inlineStorage := rhs.inlineStorage }

def allocateOutOfLineStorage (size : Nat) : Result SizesAndStrides :=
  match malloc fresh (storageBytes size) with
  | some block => pure { o with outOfLineStorage := block }
  | none => throw (some o.setNull)

def resizeOutOfLineStorage (newSize : Nat) : Result SizesAndStrides :=
  match realloc fresh o.outOfLineStorage (storageBytes newSize) with
  | some block => pure { o with outOfLineStorage := block }
  | none => throw (some o.setNull)

def copyDataOutline : Result SizesAndStrides := do
  let block ← memcpy o.outOfLineStorage 0 rhs.outOfLineStorage 0 (storageBytes rhs.size / 8)
  pure { o with outOfLineStorage := block }

/-- An object before its constructor has run. -/
def blank : SizesAndStrides := ⟨rhs.size, fun _ ↦ 0, ⟨0, fun _ ↦ 0⟩⟩

/-- The copy constructor. -/
def copy : Result SizesAndStrides :=
  if rhs.isInline then pure ((blank rhs).copyDataInline rhs)
  else do
    let o ← allocateOutOfLineStorage fresh (blank rhs) rhs.size
    o.copyDataOutline rhs

/-- The move constructor, with what it leaves of its argument. -/
def move : SizesAndStrides × SizesAndStrides :=
  if (blank rhs).isInline then ((blank rhs).copyDataInline rhs, { rhs with size := 0 })
  else ({ blank rhs with outOfLineStorage := rhs.outOfLineStorage }, { rhs.setNull with size := 0 })

/-- The assignment of another object. -/
def assign : Result SizesAndStrides :=
  if rhs.isInline then pure { o.release.copyDataInline rhs with size := rhs.size }
  else do
    let o ← (if o.isInline then allocateOutOfLineStorage fresh o rhs.size
      else resizeOutOfLineStorage fresh o rhs.size)
    let o ← o.copyDataOutline rhs
    pure { o with size := rhs.size }

/-- The move assignment of another object, with what it leaves of it. -/
def moveAssign : SizesAndStrides × SizesAndStrides :=
  if rhs.isInline then
    ({ o.release.copyDataInline rhs with size := rhs.size }, { rhs with size := 0 })
  else
    ({ o with size := rhs.size, outOfLineStorage := rhs.outOfLineStorage },
      { rhs.setNull with size := 0 })

/-- `operator==`: `memcmp` over all inline words, or over the words in use of the blocks. -/
def equal : Bool :=
  if o.size ≠ rhs.size then false
  else if o.isInline then ∀ i < 2 * maxInlineSize, o.inlineStorage i = rhs.inlineStorage i
  else ∀ i < storageBytes o.size / 8, o.outOfLineStorage.word i = rhs.outOfLineStorage.word i

/-- `resizeSlowPath` (`sizes_and_strides.cpp:6–77`). -/
def resizeSlowPath (newSize oldSize : Nat) : Result SizesAndStrides :=
  if newSize ≤ maxInlineSize then do
    let words ← memcpy o.inlineWords 0 o.outOfLineStorage 0 maxInlineSize
    let words ← memcpy words maxInlineSize o.outOfLineStorage oldSize maxInlineSize
    pure { o.release with size := newSize, inlineStorage := words.word }
  else if o.isInline then
    match malloc fresh (storageBytes newSize) with
    | none => throw (some o)
    | some block => do
      let toZero := if oldSize < newSize then newSize - oldSize else 0
      let block ← memcpy block 0 o.inlineWords 0 oldSize
      let block ← memset block oldSize toZero
      let block ← memcpy block newSize o.inlineWords maxInlineSize oldSize
      let block ← memset block (newSize + oldSize) toZero
      pure { o with size := newSize, outOfLineStorage := block }
  else do
    let o ← (if oldSize < newSize then resizeOutOfLineStorage fresh o newSize else pure o)
    -- The strides move to their new place before a shrinking block loses its end.
    let block ← memcpy o.outOfLineStorage newSize o.outOfLineStorage oldSize (min oldSize newSize)
    if oldSize < newSize then do
      let block ← memset block oldSize (newSize - oldSize)
      let block ← memset block (newSize + oldSize) (newSize - oldSize)
      pure { o with size := newSize, outOfLineStorage := block }
    else do
      let o ← resizeOutOfLineStorage fresh { o with outOfLineStorage := block } newSize
      pure { o with size := newSize }

def resize (newSize : Nat) : Result SizesAndStrides :=
  if newSize = o.size then pure o
  else if newSize ≤ maxInlineSize ∧ o.isInline then
    if o.size < newSize then do
      let words ← memset o.inlineWords o.size (newSize - o.size)
      let words ← memset words (maxInlineSize + o.size) (newSize - o.size)
      pure { o with size := newSize, inlineStorage := words.word }
    else pure { o with size := newSize }
  else o.resizeSlowPath fresh newSize o.size

/-- Where `sizes_data` points. -/
def data : Words := if o.isInline then o.inlineWords else o.outOfLineStorage

/-- The offset of `strides_data` from `sizes_data`. -/
def stridesBegin : Nat := if o.isInline then maxInlineSize else o.size

def sizeAt (idx : Nat) : Int64 := o.data.word idx

def strideAt (idx : Nat) : Int64 := o.data.word (o.stridesBegin + idx)

/-- `std::copy` to a place from `sizes_data` on. -/
def store (pos : Nat) (values : List Int64) : Result SizesAndStrides := do
  let words ← memcpy o.data pos ⟨values.length, fun i ↦ values.getD i 0⟩ 0 values.length
  pure (if o.isInline then { o with inlineStorage := words.word }
    else { o with outOfLineStorage := words })

def setSizes (newSizes : List Int64) : Result SizesAndStrides := do
  let o ← o.resize fresh newSizes.length
  o.store 0 newSizes

def setStrides (strides : List Int64) : Result SizesAndStrides :=
  if strides.length = o.size then o.store o.stridesBegin strides else throw (some o)

end SizesAndStrides

/-! ### Programs over objects -/

/-- A call, with its objects by their number in the order of construction. -/
inductive SizesCall where
  | construct
  | copy (src : Nat)
  | move (src : Nat)
  | assign (dst src : Nat)
  | moveAssign (dst src : Nat)
  | resize (i newSize : Nat)
  | setSizes (i : Nat) (newSizes : List Int64)
  | setStrides (i : Nat) (strides : List Int64)
  | setSizeAt (i idx : Nat) (value : Int64)
  | setStrideAt (i idx : Nat) (value : Int64)

namespace SizesAndStrides

/-- The objects after a call on one of them, which an exception leaves in some state. -/
def put (objects : List SizesAndStrides) (i : Nat) :
    Result SizesAndStrides → Option (List SizesAndStrides)
  | .ok o => some (objects.set i o)
  | .error left => left.map (objects.set i ·)

/-- One call; none for an object that is not there, an index that is not below the size, and an
access outside an object. -/
def step (objects : List SizesAndStrides) : SizesCall × Fresh → Option (List SizesAndStrides)
  | (.construct, _) => some (objects ++ [new])
  | (.copy src, fresh) => do
    let rhs ← objects[src]?
    match copy fresh rhs with
    | .ok o => some (objects ++ [o])
    | .error left => left.map fun _ ↦ objects
  | (.move src, _) => do
    let rhs ← objects[src]?
    some (objects.set src (move rhs).2 ++ [(move rhs).1])
  | (.assign dst src, fresh) => do
    let o ← objects[dst]?
    let rhs ← objects[src]?
    if dst = src then some objects else put objects dst (assign fresh o rhs)
  | (.moveAssign dst src, _) => do
    let o ← objects[dst]?
    let rhs ← objects[src]?
    if dst = src then some objects
    else some ((objects.set dst (moveAssign o rhs).1).set src (moveAssign o rhs).2)
  | (.resize i newSize, fresh) => do
    let o ← objects[i]?
    put objects i (o.resize fresh newSize)
  | (.setSizes i newSizes, fresh) => do
    let o ← objects[i]?
    put objects i (o.setSizes fresh newSizes)
  | (.setStrides i strides, _) => do
    let o ← objects[i]?
    put objects i (o.setStrides strides)
  | (.setSizeAt i idx value, _) => do
    let o ← objects[i]?
    if idx < o.size then put objects i (o.store idx [value]) else none
  | (.setStrideAt i idx value, _) => do
    let o ← objects[i]?
    if idx < o.size then put objects i (o.store (o.stridesBegin + idx) [value]) else none

/-! ### What it is for -/

abbrev Lists := List Int64 × List Int64

/-- The elements of `sizes_arrayref` and of `strides_arrayref`. -/
def lists (o : SizesAndStrides) : Lists :=
  ((List.range o.size).map o.sizeAt, (List.range o.size).map o.strideAt)

/-- A list cut to a new length, or filled up with zeros. -/
def resized (n : Nat) (l : List Int64) : List Int64 := l.take n ++ List.replicate (n - l.length) 0

/-- One call on pairs of lists. -/
def listStep (pairs : List Lists) : SizesCall → Option (List Lists)
  | .construct => some (pairs ++ [([0], [1])])
  | .copy src => do
    let l ← pairs[src]?
    some (pairs ++ [l])
  | .move src => do
    let l ← pairs[src]?
    some (pairs.set src ([], []) ++ [l])
  | .assign dst src => do
    let _ ← pairs[dst]?
    let l ← pairs[src]?
    some (pairs.set dst l)
  | .moveAssign dst src => do
    let _ ← pairs[dst]?
    let l ← pairs[src]?
    if dst = src then some pairs else some ((pairs.set dst l).set src ([], []))
  | .resize i n => do
    let l ← pairs[i]?
    some (pairs.set i (resized n l.1, resized n l.2))
  | .setSizes i xs => do
    let l ← pairs[i]?
    some (pairs.set i (xs, resized xs.length l.2))
  | .setStrides i xs => do
    let l ← pairs[i]?
    if xs.length = l.1.length then some (pairs.set i (l.1, xs)) else some pairs
  | .setSizeAt i idx v => do
    let l ← pairs[i]?
    if idx < l.1.length then some (pairs.set i (l.1.set idx v, l.2)) else none
  | .setStrideAt i idx v => do
    let l ← pairs[i]?
    if idx < l.1.length then some (pairs.set i (l.1, l.2.set idx v)) else none

/-- A call for fewer entries than a `size_t` can count the bytes of, whose allocation succeeds. -/
def Fits : SizesCall × Fresh → Prop
  | (.resize _ n, fresh) => n < 2 ^ 60 ∧ fresh.isSome
  | (.setSizes _ xs, fresh) => xs.length < 2 ^ 60 ∧ fresh.isSome
  | (_, fresh) => fresh.isSome

/-! ### The entries of an object -/

variable {o rhs : SizesAndStrides} {n k pos start idx : Nat} {f g : Nat → Int64} {xs : List Int64}
  {dst src : Words} {word : Nat → Int64} {v : Int64} {l : Lists}

/-- An object of size `n` with these sizes and strides; a block has room for them. -/
inductive Holds : SizesAndStrides → Nat → (Nat → Int64) → (Nat → Int64) → Prop
  | inline {n : Nat} {f g words : Nat → Int64} {block : Words} (hn : n ≤ 5)
      (hf : ∀ i < n, words i = f i) (hg : ∀ i < n, words (5 + i) = g i) :
      Holds ⟨n, words, block⟩ n f g
  | block {n : Nat} {f g words : Nat → Int64} {block : Words} (hn : 5 < n) (hfit : n < 2 ^ 60)
      (hlen : block.length = n + n) (hf : ∀ i < n, block.word i = f i)
      (hg : ∀ i < n, block.word (n + i) = g i) : Holds ⟨n, words, block⟩ n f g

theorem isInline_iff : o.isInline = true ↔ o.size ≤ 5 := decide_eq_true_iff

theorem isInline_eq_false : o.isInline = false ↔ 5 < o.size :=
  decide_eq_false_iff_not.trans Nat.not_le

theorem isInline_of_le {words : Nat → Int64} {block : Words} (h : n ≤ 5) :
    isInline ⟨n, words, block⟩ = true := isInline_iff.mpr h

theorem isInline_of_lt {words : Nat → Int64} {block : Words} (h : 5 < n) :
    isInline ⟨n, words, block⟩ = false := isInline_eq_false.mpr h

theorem Holds.size (h : o.Holds n f g) : o.size = n := by cases h <;> rfl

theorem Holds.congr (h : o.Holds n f g) {f' g' : Nat → Int64} (hf : ∀ i < n, f i = f' i)
    (hg : ∀ i < n, g i = g' i) : o.Holds n f' g' := by
  cases h with
  | inline hn hf₀ hg₀ =>
    exact .inline hn (fun i hi ↦ (hf₀ i hi).trans (hf i hi)) fun i hi ↦ (hg₀ i hi).trans (hg i hi)
  | block hn hfit hlen hf₀ hg₀ =>
    exact .block hn hfit hlen (fun i hi ↦ (hf₀ i hi).trans (hf i hi)) fun i hi ↦
      (hg₀ i hi).trans (hg i hi)

/-- What the accessors read. -/
theorem Holds.entries (h : o.Holds n f g) :
    (∀ i < n, o.sizeAt i = f i) ∧ ∀ i < n, o.strideAt i = g i := by
  cases h with
  | inline hn hf hg =>
    simp only [sizeAt, strideAt, data, stridesBegin, isInline_of_le hn]
    exact ⟨hf, hg⟩
  | block hn _ _ hf hg =>
    simp only [sizeAt, strideAt, data, stridesBegin, isInline_of_lt hn]
    exact ⟨hf, hg⟩

theorem memcpy_ok (hdst : pos + n ≤ dst.length) (hsrc : start + n ≤ src.length) :
    memcpy dst pos src start n = .ok ⟨dst.length, fun i ↦
      if pos ≤ i ∧ i < pos + n then src.word (start + (i - pos)) else dst.word i⟩ :=
  if_pos ⟨hdst, hsrc⟩

theorem memset_ok (hn : n < 2 ^ 60) (hdst : pos + n ≤ dst.length) :
    memset dst pos n = .ok ⟨dst.length, fun i ↦
      if pos ≤ i ∧ i < pos + n then 0 else dst.word i⟩ := by
  rw [memset, Nat.mod_eq_of_lt (by omega), Nat.mul_div_cancel _ (by decide),
    memcpy_ok hdst (by simp)]

theorem storageBytes_div (h : n < 2 ^ 60) : storageBytes n / 8 = n + n := by
  rw [storageBytes]
  omega

/-! ### Copies and moves -/

theorem holds_new : new.Holds 1 (fun _ ↦ 0) (fun _ ↦ 1) :=
  .inline (by decide) (by decide) (by decide)

theorem holds_zero (h : o.size = 0) : o.Holds 0 f g := by
  obtain ⟨size, words, block⟩ := o
  subst h
  exact .inline (Nat.zero_le _) nofun nofun

/-- What an object takes over from another one. -/
theorem Holds.taken (h : rhs.Holds n f g) {words : Nat → Int64} {block : Words}
    (hin : rhs.isInline = true → words = rhs.inlineStorage)
    (hout : rhs.isInline = false → block.length = n + n ∧
      ∀ i < n + n, block.word i = rhs.outOfLineStorage.word i) :
    Holds ⟨rhs.size, words, block⟩ n f g := by
  rw [h.size]
  cases h with
  | inline hn hf hg =>
    rw [hin (isInline_of_le hn)]
    exact .inline hn hf hg
  | block hn hfit _ hf hg =>
    obtain ⟨hlen, hwords⟩ := hout (isInline_of_lt hn)
    exact .block hn hfit hlen (fun i hi ↦ (hwords i (by omega)).trans (hf i hi)) fun i hi ↦
      (hwords _ (by omega)).trans (hg i hi)

theorem Holds.room (h : o.Holds n f g) (hout : o.isInline = false) :
    n < 2 ^ 60 ∧ o.outOfLineStorage.length = n + n := by
  cases h with
  | inline hn => exact absurd (isInline_eq_false.mp hout) (Nat.not_lt_of_le hn)
  | block hn hfit hlen => exact ⟨hfit, hlen⟩

theorem Holds.copyDataOutline (h : rhs.Holds n f g) (hout : rhs.isInline = false)
    (ho : o.outOfLineStorage.length = n + n) :
    ∃ block, o.copyDataOutline rhs = .ok { o with outOfLineStorage := block } ∧
      block.length = n + n ∧ ∀ i < n + n, block.word i = rhs.outOfLineStorage.word i := by
  obtain ⟨hfit, hlen⟩ := h.room hout
  rw [SizesAndStrides.copyDataOutline, h.size, storageBytes_div hfit,
    memcpy_ok (by omega) (by omega)]
  refine ⟨_, rfl, ho, fun i hi ↦ ?_⟩
  simp only [Nat.zero_le, Nat.zero_add, true_and, if_pos hi, Nat.sub_zero]

theorem Holds.copy (h : rhs.Holds n f g) (word : Nat → Int64) :
    ∃ o, copy (some word) rhs = .ok o ∧ o.Holds n f g := by
  rw [SizesAndStrides.copy]
  cases hin : rhs.isInline with
  | true => exact ⟨_, rfl, h.taken (fun _ ↦ rfl) (by simp [hin])⟩
  | false =>
    have hfit := (h.room hin).1
    obtain ⟨block, hcopied, hblock⟩ := h.copyDataOutline hin
      (o := { blank rhs with outOfLineStorage := ⟨storageBytes rhs.size / 8, word⟩ })
      (by rw [h.size]; exact storageBytes_div hfit)
    exact ⟨_, hcopied, h.taken (by simp [hin]) fun _ ↦ hblock⟩

theorem Holds.move (h : rhs.Holds n f g) : (move rhs).1.Holds n f g := by
  have hsize : (blank rhs).isInline = rhs.isInline := rfl
  rw [SizesAndStrides.move, hsize]
  cases hin : rhs.isInline with
  | true => exact h.taken (fun _ ↦ rfl) (by simp [hin])
  | false => exact h.taken (by simp [hin]) fun _ ↦ ⟨(h.room hin).2, fun _ _ ↦ rfl⟩

theorem size_moved : (move rhs).2.size = 0 := by
  rw [SizesAndStrides.move]
  split <;> rfl

theorem Holds.assign (h : rhs.Holds n f g) (o : SizesAndStrides) (word : Nat → Int64) :
    ∃ o', assign (some word) o rhs = .ok o' ∧ o'.Holds n f g := by
  rw [SizesAndStrides.assign]
  cases hin : rhs.isInline with
  | true => exact ⟨_, rfl, h.taken (fun _ ↦ rfl) (by simp [hin])⟩
  | false =>
    have hroom : ∃ block, (if o.isInline then allocateOutOfLineStorage (some word) o rhs.size
          else resizeOutOfLineStorage (some word) o rhs.size) =
        .ok { o with outOfLineStorage := block } ∧ block.length = n + n := by
      have hbytes : storageBytes rhs.size / 8 = n + n := by
        rw [h.size, storageBytes_div (h.room hin).1]
      cases o.isInline with
      | true | false => exact ⟨_, rfl, hbytes⟩
    obtain ⟨room, hroom, hlen⟩ := hroom
    obtain ⟨block, hcopied, hblock⟩ := h.copyDataOutline hin
      (o := { o with outOfLineStorage := room }) hlen
    rw [hroom, ok_bind, hcopied]
    exact ⟨_, rfl, h.taken (by simp [hin]) fun _ ↦ hblock⟩

theorem Holds.moveAssign (h : rhs.Holds n f g) (o : SizesAndStrides) :
    (moveAssign o rhs).1.Holds n f g := by
  rw [SizesAndStrides.moveAssign]
  cases hin : rhs.isInline with
  | true => exact h.taken (fun _ ↦ rfl) (by simp [hin])
  | false => exact h.taken (by simp [hin]) fun _ ↦ ⟨(h.room hin).2, fun _ _ ↦ rfl⟩

theorem size_moveAssigned : (moveAssign o rhs).2.size = 0 := by
  rw [SizesAndStrides.moveAssign]
  split <;> rfl

/-! ### Resizing -/

/-- Cut to a new length, or filled up with zeros. -/
def filled (k : Nat) (f : Nat → Int64) (i : Nat) : Int64 := if i < k then f i else 0

theorem Holds.resizeSlowPath (h : o.Holds k f g) (hfit : n < 2 ^ 60)
    (hslow : ¬ (n ≤ 5 ∧ k ≤ 5)) (word : Nat → Int64) :
    ∃ o', o.resizeSlowPath (some word) n k = .ok o' ∧ o'.Holds n (filled k f) (filled k g) := by
  rw [SizesAndStrides.resizeSlowPath]
  cases h with
  | inline hk hf hg =>
    have hn : 5 < n := by omega
    rw [if_neg (show ¬ n ≤ maxInlineSize from Nat.not_le_of_lt hn), if_pos (isInline_of_le hk)]
    simp only [malloc, Option.map_some, storageBytes_div hfit, if_pos (Nat.lt_of_le_of_lt hk hn),
      inlineWords, maxInlineSize]
    rw [memcpy_ok (by dsimp only; omega) (by dsimp only; omega), ok_bind,
      memset_ok (by omega) (by dsimp only; omega), ok_bind,
      memcpy_ok (by dsimp only; omega) (by dsimp only; omega), ok_bind,
      memset_ok (by omega) (by dsimp only; omega)]
    refine ⟨_, rfl, .block hn hfit rfl (by grind [filled]) fun i hi ↦ ?_⟩
    grind [filled]
  | block hk _ hlen hf hg =>
    rcases Nat.lt_or_ge 5 n with hn | hn
    · simp only [if_neg (show ¬ n ≤ maxInlineSize from Nat.not_le_of_lt hn),
        isInline_of_lt hk, Bool.false_eq_true, if_false, resizeOutOfLineStorage, realloc,
        Option.map_some, storageBytes_div hfit]
      split
      · next hlt =>
        rw [pure_bind, memcpy_ok (by dsimp only; omega) (by dsimp only; omega), ok_bind,
          memset_ok (by omega) (by dsimp only; omega), ok_bind,
          memset_ok (by omega) (by dsimp only; omega)]
        exact ⟨_, rfl, .block hn hfit rfl (by grind [filled]) (by grind [filled])⟩
      · next hlt =>
        rw [pure_bind, memcpy_ok (by dsimp only; omega) (by dsimp only; omega)]
        exact ⟨_, rfl, .block hn hfit rfl (by grind [filled]) (by grind [filled])⟩
    · rw [if_pos (show n ≤ maxInlineSize from hn)]
      simp only [inlineWords, maxInlineSize]
      rw [memcpy_ok (by dsimp only; omega) (by omega), ok_bind,
        memcpy_ok (by dsimp only; omega) (by omega)]
      exact ⟨_, rfl, .inline hn (by grind [filled]) (by grind [filled])⟩

theorem Holds.resize (h : o.Holds k f g) (hfit : n < 2 ^ 60) (word : Nat → Int64) :
    ∃ o', o.resize (some word) n = .ok o' ∧ o'.Holds n (filled k f) (filled k g) := by
  rw [SizesAndStrides.resize, h.size]
  by_cases hne : n = k
  · rw [if_pos hne]
    exact ⟨o, rfl, (hne ▸ h).congr (by grind [filled]) (by grind [filled])⟩
  · rw [if_neg hne]
    by_cases hfast : n ≤ 5 ∧ k ≤ 5
    · cases h with
      | block hk => omega
      | inline hk hf hg =>
        rw [if_pos ⟨hfast.1, isInline_of_le hk⟩]
        split
        · next hlt =>
          simp only [inlineWords, maxInlineSize]
          rw [memset_ok (by omega) (by dsimp only; omega), ok_bind,
            memset_ok (by omega) (by dsimp only; omega)]
          exact ⟨_, rfl, .inline hfast.1 (by grind [filled]) (by grind [filled])⟩
        · next hlt => exact ⟨_, rfl, .inline hfast.1 (by grind [filled]) (by grind [filled])⟩
    · rw [if_neg fun h' ↦ hfast ⟨h'.1, h.size ▸ isInline_iff.mp h'.2⟩]
      exact h.resizeSlowPath hfit hfast word

/-! ### Writes -/

theorem Holds.data_length (h : o.Holds n f g) : n + n ≤ o.data.length ∧ n ≤ o.stridesBegin ∧
    o.stridesBegin + n ≤ o.data.length := by
  cases h with
  | inline hn =>
    simp only [data, stridesBegin, isInline_of_le hn, if_true, inlineWords, maxInlineSize]
    omega
  | block hn _ hlen =>
    simp only [data, stridesBegin, isInline_of_lt hn, Bool.false_eq_true, if_false]
    omega

/-- What the entries are after a write. -/
theorem Holds.store (h : o.Holds n f g) (pos : Nat) (xs : List Int64)
    (hpos : pos + xs.length ≤ o.data.length) :
    ∃ o', o.store pos xs = .ok o' ∧ o'.Holds n
      (fun i ↦ if pos ≤ i ∧ i < pos + xs.length then xs.getD (i - pos) 0 else f i)
      (fun i ↦ if pos ≤ o.stridesBegin + i ∧ o.stridesBegin + i < pos + xs.length then
        xs.getD (o.stridesBegin + i - pos) 0 else g i) := by
  rw [SizesAndStrides.store, memcpy_ok hpos (by simp)]
  cases h with
  | inline hn hf hg =>
    simp only [data, stridesBegin, isInline_of_le hn, inlineWords, maxInlineSize]
    exact ⟨_, rfl, .inline hn (by grind) (by grind)⟩
  | block hn hfit hlen hf hg =>
    simp only [data, stridesBegin, isInline_of_lt hn]
    exact ⟨_, rfl, .block hn hfit hlen (by grind) (by grind)⟩

theorem Holds.setSizes (h : o.Holds k f g) (hfit : xs.length < 2 ^ 60) (word : Nat → Int64) :
    ∃ o', o.setSizes (some word) xs = .ok o' ∧
      o'.Holds xs.length (fun i ↦ xs.getD i 0) (filled k g) := by
  obtain ⟨r, hr, hresized⟩ := h.resize hfit word
  obtain ⟨hlen, hbegin, -⟩ := hresized.data_length
  obtain ⟨o', ho', hstored⟩ := hresized.store 0 xs (by omega)
  refine ⟨o', by rw [SizesAndStrides.setSizes, hr, ok_bind, ho'], hstored.congr ?_ ?_⟩
  · intro i hi
    rw [if_pos (by omega), Nat.sub_zero]
  · intro i hi
    rw [if_neg (by omega)]

theorem Holds.setStrides (h : o.Holds n f g) (hlen : xs.length = n) :
    ∃ o', o.setStrides xs = .ok o' ∧ o'.Holds n f (fun i ↦ xs.getD i 0) := by
  obtain ⟨-, hbegin, hroom⟩ := h.data_length
  obtain ⟨o', ho', hstored⟩ := h.store o.stridesBegin xs (by omega)
  refine ⟨o', by rwa [SizesAndStrides.setStrides, if_pos (hlen.trans h.size.symm)],
    hstored.congr ?_ ?_⟩
  · intro i hi
    rw [if_neg (by omega)]
  · intro i hi
    rw [if_pos (by omega), Nat.add_sub_cancel_left]

/-! ### Programs -/

/-- An object that stands for a pair of lists. -/
def Represents (o : SizesAndStrides) (l : Lists) : Prop :=
  l.2.length = l.1.length ∧ o.Holds l.1.length (fun i ↦ l.1.getD i 0) (fun i ↦ l.2.getD i 0)

theorem Represents.lists (h : o.Represents l) : o.lists = l := by
  obtain ⟨hlen, h⟩ := h
  obtain ⟨hf, hg⟩ := h.entries
  rw [SizesAndStrides.lists, h.size]
  refine Prod.ext (ext_getElem (by simp) fun i hi hi' ↦ ?_)
    (ext_getElem (by simp [hlen]) fun i hi hi' ↦ ?_)
  · rw [getElem_map, getElem_range, hf i hi', getD_eq_getElem _ _ hi']
  · rw [getElem_map, getElem_range, hg i (hlen ▸ hi'), getD_eq_getElem _ _ hi']

theorem length_resized (n : Nat) (l : List Int64) : (resized n l).length = n := by
  rw [resized, length_append, length_take, length_replicate]
  omega

theorem getD_resized (l : List Int64) {i : Nat} (hi : i < n) :
    (resized n l).getD i 0 = filled l.length (fun i ↦ l.getD i 0) i := by
  rw [resized, filled]
  grind

theorem getD_set (l : List Int64) (h : idx < l.length) (i : Nat) :
    (l.set idx v).getD i 0 = if idx ≤ i ∧ i < idx + 1 then v else l.getD i 0 := by
  rw [getD_eq_getElem?_getD, getElem?_set]
  grind

/-- Objects that stand for pairs of lists, in order. -/
def Agree (objects : List SizesAndStrides) (pairs : List Lists) : Prop :=
  List.Forall₂ Represents objects pairs

variable {objects : List SizesAndStrides} {pairs : List Lists}

/-- Both sides look up an object. -/
theorem Agree.bind (h : Agree objects pairs) (i : Nat) {φ : SizesAndStrides → Option _}
    {ψ : Lists → Option _} (hrel : ∀ o l, objects[i]? = some o → pairs[i]? = some l →
      o.Represents l → Option.Rel Agree (φ o) (ψ l)) :
    Option.Rel Agree (objects[i]? >>= φ) (pairs[i]? >>= ψ) := by
  induction h generalizing i with
  | nil => exact .none
  | cons hol _ ih =>
    cases i with
    | zero => exact hrel _ _ rfl rfl hol
    | succ i => exact ih i hrel

theorem Agree.set (h : Agree objects pairs) (i : Nat) (ho : o.Represents l) :
    Agree (objects.set i o) (pairs.set i l) := by
  induction h generalizing i with
  | nil => exact .nil
  | cons hol hrest ih =>
    cases i with
    | zero => exact .cons ho hrest
    | succ i => exact .cons hol (ih i)

theorem Agree.concat (h : Agree objects pairs) (ho : o.Represents l) :
    Agree (objects ++ [o]) (pairs ++ [l]) :=
  rel_append h (.cons ho .nil)

theorem Agree.eq_map (h : Agree objects pairs) : objects.map lists = pairs := by
  induction h with
  | nil => rfl
  | cons hol _ ih => rw [map_cons, ih, hol.lists]

theorem Agree.represents (h : Agree objects pairs) (ho : o ∈ objects) : ∃ l, o.Represents l := by
  induction h with
  | nil => cases ho
  | cons hol _ ih =>
    cases ho with
    | head => exact ⟨_, hol⟩
    | tail _ ho => exact ih ho

/-- A call on one object that ends as it should. -/
theorem Agree.put {x : Result SizesAndStrides} (h : Agree objects pairs) (i : Nat)
    (hx : ∃ o, x = .ok o ∧ o.Represents l) :
    Option.Rel Agree (put objects i x) (some (pairs.set i l)) := by
  obtain ⟨o, rfl, ho⟩ := hx
  exact .some (h.set i ho)

/-- One call does to the objects what it does to the pairs of lists. -/
theorem Agree.step (h : Agree objects pairs) (c : SizesCall × Fresh) (hfits : Fits c) :
    Option.Rel Agree (step objects c) (listStep pairs c.1) := by
  obtain ⟨call, fresh⟩ := c
  obtain ⟨word, rfl⟩ : ∃ word, fresh = some word := by
    cases call with
    | resize | setSizes => exact Option.isSome_iff_exists.mp hfits.2
    | _ => exact Option.isSome_iff_exists.mp hfits
  cases call with
  | construct => exact .some (h.concat ⟨rfl, holds_new.congr (by decide) (by decide)⟩)
  | copy src =>
    refine h.bind src fun rhs l _ _ hrhs ↦ ?_
    obtain ⟨o, ho, hcopy⟩ := hrhs.2.copy word
    rw [ho]
    exact .some (h.concat ⟨hrhs.1, hcopy⟩)
  | move src =>
    refine h.bind src fun rhs l _ _ hrhs ↦ ?_
    exact .some ((h.set src ⟨rfl, holds_zero size_moved⟩).concat ⟨hrhs.1, hrhs.2.move⟩)
  | assign dst src =>
    refine h.bind dst fun o _ _ _ _ ↦ h.bind src fun rhs l _ hl hrhs ↦ ?_
    split
    · next heq =>
      obtain ⟨hlt, hl⟩ := List.getElem?_eq_some_iff.mp (heq ▸ hl)
      rw [← hl, set_getElem_self]
      exact .some h
    · obtain ⟨o', ho', hassign⟩ := hrhs.2.assign o word
      exact h.put dst ⟨o', ho', hrhs.1, hassign⟩
  | moveAssign dst src =>
    refine h.bind dst fun o _ _ _ _ ↦ h.bind src fun rhs l _ _ hrhs ↦ ?_
    split
    · exact .some h
    · exact .some ((h.set dst ⟨hrhs.1, hrhs.2.moveAssign o⟩).set src
        ⟨rfl, holds_zero size_moveAssigned⟩)
  | resize i n =>
    refine h.bind i fun o l _ _ ho ↦ ?_
    obtain ⟨o', ho', hresized⟩ := ho.2.resize hfits.1 word
    refine h.put i ⟨o', ho', ?_, ?_⟩
    · simp only [length_resized]
    · rw [length_resized]
      refine hresized.congr (fun i hi ↦ (getD_resized _ hi).symm) fun i hi ↦ ?_
      rw [getD_resized _ hi, ho.1]
  | setSizes i xs =>
    refine h.bind i fun o l _ _ ho ↦ ?_
    obtain ⟨o', ho', hset⟩ := ho.2.setSizes hfits.1 word
    refine h.put i ⟨o', ho', length_resized _ _, hset.congr (fun _ _ ↦ rfl) fun i hi ↦ ?_⟩
    rw [getD_resized _ hi, ho.1]
  | setStrides i xs =>
    refine h.bind i fun o l heq _ ho ↦ ?_
    split
    · next hlen =>
      obtain ⟨o', ho', hset⟩ := ho.2.setStrides hlen
      exact h.put i ⟨o', ho', hlen, hset⟩
    · next hlen =>
      obtain ⟨hlt, heq⟩ := List.getElem?_eq_some_iff.mp heq
      have hsame : SizesAndStrides.put objects i (o.setStrides xs) = some objects := by
        rw [SizesAndStrides.setStrides, if_neg (by rwa [ho.2.size]), ← heq]
        exact congrArg some (set_getElem_self hlt)
      rw [hsame]
      exact .some h
  | setSizeAt i idx v =>
    refine h.bind i fun o l _ _ ho ↦ ?_
    obtain ⟨hroom, hbegin, -⟩ := ho.2.data_length
    simp only [ho.2.size]
    split
    · next hlt =>
      obtain ⟨o', ho', hstored⟩ := ho.2.store idx [v] (by rw [length_singleton]; omega)
      refine h.put i ⟨o', ho', by rw [length_set, ho.1], ?_⟩
      rw [length_set]
      refine hstored.congr (fun i hi ↦ ?_) fun i hi ↦ ?_
      · grind
      · rw [if_neg (by rw [length_singleton]; omega)]
    · exact .none
  | setStrideAt i idx v =>
    refine h.bind i fun o l _ _ ho ↦ ?_
    obtain ⟨-, hbegin, hroom⟩ := ho.2.data_length
    simp only [ho.2.size]
    split
    · next hlt =>
      obtain ⟨o', ho', hstored⟩ := ho.2.store (o.stridesBegin + idx) [v]
        (by rw [length_singleton]; omega)
      refine h.put i ⟨o', ho', by rw [length_set, ho.1], ?_⟩
      refine hstored.congr (fun i hi ↦ ?_) fun i hi ↦ ?_
      · rw [if_neg (by omega)]
      · rw [getD_set _ (by rwa [ho.1])]
        grind
    · exact .none

/-- A program on objects and the same program on pairs of lists. -/
theorem Agree.run (h : Agree objects pairs) (calls : List (SizesCall × Fresh))
    (hfits : ∀ c ∈ calls, Fits c) :
    Option.Rel Agree (calls.foldlM SizesAndStrides.step objects)
      ((calls.map Prod.fst).foldlM listStep pairs) := by
  induction calls generalizing objects pairs with
  | nil => exact .some h
  | cons c calls ih =>
    rw [foldlM_cons, map_cons, foldlM_cons]
    have hrel := h.step c (hfits c mem_cons_self)
    generalize SizesAndStrides.step objects c = x, listStep pairs c.1 = y at hrel ⊢
    cases hrel with
    | some h => exact ih h fun c hc ↦ hfits c (mem_cons_of_mem _ hc)
    | none => exact .none

/-! ### Equality -/

/-- The inline words that hold no size and no stride. -/
def SameUnused (a b : SizesAndStrides) : Prop :=
  ∀ i < 5, a.size ≤ i → a.inlineStorage i = b.inlineStorage i ∧
    a.inlineStorage (5 + i) = b.inlineStorage (5 + i)

theorem forall_lt_add {P : Nat → Prop} (m n : Nat) :
    (∀ i < m + n, P i) ↔ (∀ i < m, P i) ∧ ∀ i < n, P (m + i) := by
  refine ⟨fun h ↦ ⟨fun i hi ↦ h i (by omega), fun i hi ↦ h _ (by omega)⟩, fun h i hi ↦ ?_⟩
  rcases Nat.lt_or_ge i m with hlt | hge
  · exact h.1 i hlt
  · exact Nat.add_sub_cancel' hge ▸ h.2 (i - m) (by omega)

theorem lists_eq_iff (hsize : o.size = rhs.size) : o.lists = rhs.lists ↔
    (∀ i < o.size, o.sizeAt i = rhs.sizeAt i) ∧ ∀ i < o.size, o.strideAt i = rhs.strideAt i := by
  rw [lists, lists, ← hsize, Prod.mk.injEq]
  simp only [map_inj_left, mem_range]

theorem equal_iff (ho : o.Represents l) :
    equal o rhs = true ↔ o.lists = rhs.lists ∧ (o.isInline = true → SameUnused o rhs) := by
  by_cases hsize : o.size = rhs.size
  · have hsame : rhs.isInline = o.isInline := by rw [isInline, isInline, hsize]
    rw [equal, if_neg (not_not_intro hsize), lists_eq_iff hsize]
    cases hin : o.isInline with
    | true =>
      have hle := isInline_iff.mp hin
      rw [if_pos rfl, decide_eq_true_iff]
      simp only [sizeAt, strideAt, data, stridesBegin, hsame, hin, maxInlineSize, forall_const]
      rw [Nat.two_mul, forall_lt_add]
      constructor
      · rintro ⟨h, h'⟩
        exact ⟨⟨fun i hi ↦ h i (by omega), fun i hi ↦ h' i (by omega)⟩,
          fun i hi _ ↦ ⟨h i hi, h' i hi⟩⟩
      · rintro ⟨⟨h, h'⟩, hunused⟩
        have hall : ∀ i < 5, _ := fun i hi ↦
          (Nat.lt_or_ge i o.size).elim (fun hlt ↦ ⟨h i hlt, h' i hlt⟩) (hunused i hi)
        exact ⟨fun i hi ↦ (hall i hi).1, fun i hi ↦ (hall i hi).2⟩
    | false =>
      have hfit := (ho.2.room hin).1
      rw [if_neg (by decide), decide_eq_true_iff]
      simp only [sizeAt, strideAt, data, stridesBegin, hsame, hin, Bool.false_eq_true, if_false,
        ← hsize, false_imp_iff, and_true]
      rw [storageBytes_div (by rwa [ho.2.size]), forall_lt_add]
  · refine iff_of_false (by rw [equal, if_pos hsize]; decide) fun h ↦ hsize ?_
    simpa [lists] using congrArg (fun l ↦ l.1.length) h.1

/-- Programs whose allocations succeed, of sizes that a `size_t` can count the bytes of, do to the
objects what they do to pairs of lists of one length; two objects compare as their lists do exactly
if they are not inline objects with the same lists and different unused words. -/
theorem sizes_and_strides_refine_lists (calls : List (SizesCall × Fresh))
    (hfits : ∀ c ∈ calls, Fits c) :
    (calls.foldlM step []).map (List.map lists) = (calls.map Prod.fst).foldlM listStep [] ∧
    ∀ objects ∈ calls.foldlM step [], ∀ a ∈ objects, ∀ b ∈ objects,
      ((equal a b = true ↔ a.lists = b.lists) ↔
        ¬ (a.isInline ∧ a.lists = b.lists ∧ ¬ SameUnused a b)) := by
  have hrel := Agree.run (.nil : Agree [] []) calls hfits
  generalize calls.foldlM step [] = x, (calls.map Prod.fst).foldlM listStep [] = y at hrel ⊢
  cases hrel with
  | none => exact ⟨rfl, nofun⟩
  | @some objects pairs hagree =>
    refine ⟨congrArg some hagree.eq_map, ?_⟩
    rintro _ ⟨⟩ a ha b hb
    obtain ⟨l, hla⟩ := hagree.represents ha
    rw [equal_iff hla, and_iff_left_iff_imp]
    simp only [not_and, not_not]
    exact ⟨fun h hin hl ↦ h hl hin, fun h hl hin ↦ h hin hl⟩

theorem sizes_and_strides_refine_lists_grown :
    ((List.map (·, some fun _ ↦ 9) [.construct, .resize 0 6, .copy 0, .resize 0 2]).foldlM step
      []).map (List.map lists) = some [([0, 0], [1, 0]), ([0, 0, 0, 0, 0, 0], [1, 0, 0, 0, 0, 0])] :=
  (sizes_and_strides_refine_lists
    (map (·, some fun _ ↦ 9) [.construct, .resize 0 6, .copy 0, .resize 0 2])
    (by simp [Fits])).1

/-- An entry that was resized away still counts. -/
theorem equal_lists_compared_unequal :
    ((List.map (·, some fun _ ↦ 0) [.construct, .construct, .resize 0 2, .setSizeAt 0 1 7,
      .resize 0 1]).foldlM step []).map
        (fun objects ↦ (objects.map lists, objects.map (equal new))) =
      some ([([0], [1]), ([0], [1])], [false, true]) := by
  decide

end SizesAndStrides

end Hisab.Vectorization.Packed
