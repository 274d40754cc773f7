import Hisab.Base.Tiling

/-!
# Regions partitioned into linked extents

A map from identities to extents of address ranges, doubly linked to their neighbours,
over a set of disjoint regions. The invariant `Partitioned` is local: it speaks of one
extent and its links. The four ways an allocator changes such a map keep it (cutting an
extent in two, joining two neighbours, adding a region as one extent, removing a region
that is one extent), and it implies that the extents of every region tile it.
-/

namespace Hisab.Base.ExtentMap
open Tiling Function ExtentMap

universe u

/-- An address range with links to its neighbours, inside the region starting at `base`. -/
@[ext] structure Extent (τ : Type u) where
  start : Nat
  size : Nat
  prev : Option Nat
  next : Option Nat
  base : Nat
  tag : τ

variable {τ : Type u}

/-- Extents by identity. -/
abbrev Extents (τ : Type u) := Nat → Option (Extent τ)

/-- Sizes of the regions by base address. -/
abbrev Regions := Nat → Option Nat

/-- Every extent lies in its region, meets its neighbours where its links say, and
overlaps no other extent; every region begins with an extent; regions are disjoint. -/
structure Partitioned (h : Extents τ) (seg : Regions) : Prop where
  pos : ∀ b B, h b = some B → 0 < B.size
  next_link : ∀ b B n, h b = some B → B.next = some n → ∃ N, h n = some N ∧
    N.prev = some b ∧ N.start = B.start + B.size ∧ N.base = B.base ∧ N.tag = B.tag
  prev_link : ∀ b B p, h b = some B → B.prev = some p → ∃ P, h p = some P ∧ P.next = some b
  first : ∀ b B, h b = some B → B.prev = none → B.start = B.base
  last : ∀ b B, h b = some B → B.next = none → ∃ r, seg B.base = some r ∧
    B.start + B.size = B.base + r
  inside : ∀ b B, h b = some B → ∃ r, seg B.base = some r ∧ B.base ≤ B.start ∧
    B.start + B.size ≤ B.base + r
  disjoint : ∀ a A b B, h a = some A → h b = some B → a ≠ b →
    A.start + A.size ≤ B.start ∨ B.start + B.size ≤ A.start
  head : ∀ base r, seg base = some r → ∃ b B, h b = some B ∧ B.start = base ∧ B.base = base
  regions_disjoint : ∀ a r b q, seg a = some r → seg b = some q → a ≠ b → a + r ≤ b ∨ b + q ≤ a

/-- The low `k` units of extent `b` become extent `front`. -/
def split (h : Extents τ) (b front k : Nat) (B : Extent τ) : Extents τ := fun x ↦
  if x = front then some { B with size := k, next := some b }
  else if x = b then some { B with start := B.start + k, size := B.size - k, prev := some front }
  else if B.prev = some x then (h x).map (fun P ↦ { P with next := some front })
  else h x

/-- Extent `keep` takes the place of the neighbours `L` and `R`; `drop` is removed. -/
def join (h : Extents τ) (keep drop : Nat) (L R : Extent τ) : Extents τ := fun x ↦
  if x = drop then none
  else if x = keep then some { L with size := L.size + R.size, next := R.next }
  else if L.prev = some x then (h x).map (fun P ↦ { P with next := some keep })
  else if R.next = some x then (h x).map (fun N ↦ { N with prev := some keep })
  else h x

/-- Successor of an extent. -/
def nextOf (h : Extents τ) (b : Nat) : Option Nat := (h b).bind Extent.next

/-- Predecessor of an extent. -/
def prevOf (h : Extents τ) (b : Nat) : Option Nat := (h b).bind Extent.prev

/-- First address of an extent. -/
def startOf (h : Extents τ) (b : Nat) : Nat := ((h b).map Extent.start).getD 0

/-- Address after an extent. -/
def endOf (h : Extents τ) (b : Nat) : Nat := ((h b).map (fun B ↦ B.start + B.size)).getD 0

variable {h : Extents τ} {seg : Regions}

/-! ### Values of a cut map -/

theorem split_eq_some {b front k x : Nat} {B X : Extent τ} :
    ExtentMap.split h b front k B x = some X ↔
      (x = front ∧ X = { B with size := k, next := some b }) ∨
      (x ≠ front ∧ x = b ∧
        X = { B with start := B.start + k, size := B.size - k, prev := some front }) ∨
      (x ≠ front ∧ x ≠ b ∧ ∃ P, h x = some P ∧
        X = if B.prev = some x then { P with next := some front } else P) := by
  unfold split
  split_ifs <;> simp_all [eq_comm]

theorem split_front {b front k : Nat} {B : Extent τ} :
    ExtentMap.split h b front k B front = some { B with size := k, next := some b } := by
  simp [split]

theorem split_self {b front k : Nat} {B : Extent τ} (hne : b ≠ front) :
    ExtentMap.split h b front k B b =
      some { B with start := B.start + k, size := B.size - k, prev := some front } := by
  simp [split, hne]

theorem split_other {b front k x : Nat} {B P : Extent τ} (hf : x ≠ front) (hb : x ≠ b)
    (hx : h x = some P) : ExtentMap.split h b front k B x =
      some (if B.prev = some x then { P with next := some front } else P) := by
  rw [split_eq_some]
  exact .inr (.inr ⟨hf, hb, P, hx, rfl⟩)

/-! ### Values of a joined map -/

theorem join_eq_some {keep drop x : Nat} {L R X : Extent τ} :
    ExtentMap.join h keep drop L R x = some X ↔
      (x ≠ drop ∧ x = keep ∧ X = { L with size := L.size + R.size, next := R.next }) ∨
      (x ≠ drop ∧ x ≠ keep ∧ ∃ P, h x = some P ∧
        X = if L.prev = some x then { P with next := some keep }
          else if R.next = some x then { P with prev := some keep } else P) := by
  unfold join
  split_ifs <;> simp_all [eq_comm]

theorem join_keep {keep drop : Nat} {L R : Extent τ} (hne : keep ≠ drop) :
    ExtentMap.join h keep drop L R keep =
      some { L with size := L.size + R.size, next := R.next } := by
  simp [join, hne]

theorem join_other {keep drop x : Nat} {L R P : Extent τ} (hd : x ≠ drop) (hk : x ≠ keep)
    (hx : h x = some P) : ExtentMap.join h keep drop L R x =
      some (if L.prev = some x then { P with next := some keep }
        else if R.next = some x then { P with prev := some keep } else P) := by
  rw [join_eq_some]
  exact .inr ⟨hd, hk, P, hx, rfl⟩

/-- Neighbours `l` and `r`, of which one is kept. -/
structure Neighbours (h : Extents τ) (l r keep drop : Nat) (L R : Extent τ) : Prop where
  left : h l = some L
  right : h r = some R
  next : L.next = some r
  kept : (keep = l ∧ drop = r) ∨ (keep = r ∧ drop = l)

namespace Partitioned

variable {B : Extent τ}

theorem prev_extent (hp : Partitioned h seg) {b p : Nat} (hb : h b = some B) (hl : B.prev = some p)
    : ∃ P, h p = some P ∧ P.next = some b ∧
      B.start = P.start + P.size ∧ B.base = P.base ∧ B.tag = P.tag := by
  obtain ⟨P, hP, hn⟩ := hp.prev_link b B p hb hl
  obtain ⟨B', hB', _, hs, hbase, htag⟩ := hp.next_link p P b hP hn
  rw [hb] at hB'
  cases hB'
  exact ⟨P, hP, hn, hs, hbase, htag⟩

/-- A link never leads back to the same extent. -/
theorem next_ne (hp : Partitioned h seg) {b n : Nat} (hb : h b = some B) (hl : B.next = some n) :
    n ≠ b := by
  rintro rfl
  obtain ⟨N, hN, _, hs, _⟩ := hp.next_link n B n hb hl
  rw [hb] at hN
  cases hN
  have := hp.pos n B hb
  omega

theorem prev_ne (hp : Partitioned h seg) {b p : Nat} (hb : h b = some B) (hl : B.prev = some p) :
    p ≠ b := by
  rintro rfl
  obtain ⟨P, hP, hn, _⟩ := hp.prev_extent hb hl
  exact hp.next_ne hP hn rfl

/-- The neighbours on the two sides of an extent differ. -/
theorem prev_ne_next (hp : Partitioned h seg) {b p n : Nat} (hb : h b = some B)
    (hl : B.prev = some p) (hn : B.next = some n) : p ≠ n := by
  rintro rfl
  obtain ⟨P, hP, _, hs, _⟩ := hp.prev_extent hb hl
  obtain ⟨N, hN, _, ht, _⟩ := hp.next_link b B p hb hn
  rw [hP] at hN
  cases hN
  have := hp.pos b B hb
  omega

/-- Extents that start at one address are the same. -/
theorem start_inj (hp : Partitioned h seg) {a b : Nat} {A B : Extent τ} (ha : h a = some A)
    (hb : h b = some B) (he : A.start = B.start) : a = b := by
  by_contra hne
  have := hp.disjoint a A b B ha hb hne
  have := hp.pos a A ha
  have := hp.pos b B hb
  omega

/-- Cutting an extent in two keeps the partition. -/
theorem split (hp : Partitioned h seg) {b front k : Nat} (hb : h b = some B) (hf : h front = none)
    (hk : 0 < k) (hlt : k < B.size) : Partitioned (ExtentMap.split h b front k B) seg := by
  have hne : b ≠ front := by grind
  have live {x : Nat} {P : Extent τ} (hx : h x = some P) : x ≠ front := by grind
  constructor
  case pos =>
    intro x X hx
    have hpos := hp.pos
    rw [split_eq_some] at hx
    grind
  case next_link =>
    intro x X n hx hn
    rcases split_eq_some.mp hx with ⟨rfl, rfl⟩ | ⟨_, rfl, rfl⟩ | ⟨hxf, hxb, P, hP, rfl⟩
    · cases hn
      exact ⟨_, split_self hne, rfl, rfl, rfl, rfl⟩
    · obtain ⟨N, hN, hNp, hNs, hNb, hNt⟩ := hp.next_link x B n hb hn
      have hnb := hp.next_ne hb hn
      have hpn : B.prev ≠ some n := fun hl ↦ hp.prev_ne_next hb hl hn rfl
      refine ⟨N, ?_, hNp, ?_, hNb, hNt⟩
      · rw [split_other (live hN) hnb hN, if_neg hpn]
      · simp only
        omega
    · by_cases hl : B.prev = some x
      · rw [if_pos hl] at hn ⊢
        cases hn
        obtain ⟨Q, hQ, _, hs, hbase, htag⟩ := hp.prev_extent hb hl
        rw [hP] at hQ
        cases hQ
        exact ⟨_, split_front, hl, hs, hbase, htag⟩
      · rw [if_neg hl] at hn ⊢
        obtain ⟨N, hN, hNp, hNs, hNb, hNt⟩ := hp.next_link x P n hP hn
        have hnb : n ≠ b := by
          rintro rfl
          rw [hb] at hN
          cases hN
          exact hl hNp
        refine ⟨_, split_other (live hN) hnb hN, ?_⟩
        split <;> exact ⟨hNp, hNs, hNb, hNt⟩
  case prev_link =>
    intro x X p hx hl
    rcases split_eq_some.mp hx with ⟨rfl, rfl⟩ | ⟨_, rfl, rfl⟩ | ⟨hxf, hxb, P, hP, rfl⟩
    · obtain ⟨Q, hQ, _⟩ := hp.prev_link b B p hb hl
      refine ⟨_, split_other (live hQ) (hp.prev_ne hb hl) hQ, ?_⟩
      rw [if_pos hl]
    · cases hl
      exact ⟨_, split_front, rfl⟩
    · have hPl : P.prev = some p := by split at hl <;> exact hl
      obtain ⟨Q, hQ, hQn⟩ := hp.prev_link x P p hP hPl
      by_cases hpb : p = b
      · subst hpb
        rw [hb] at hQ
        cases hQ
        exact ⟨_, split_self hne, hQn⟩
      · refine ⟨_, split_other (live hQ) hpb hQ, ?_⟩
        have hnp : B.prev ≠ some p := by
          intro hBp
          obtain ⟨R, hR, hRn⟩ := hp.prev_link b B p hb hBp
          grind
        rw [if_neg hnp, hQn]
  case first =>
    intro x X hx hn
    have hfirst := hp.first
    rw [split_eq_some] at hx
    grind
  case last =>
    intro x X hx hn
    have hlast := hp.last
    rw [split_eq_some] at hx
    grind
  case inside =>
    intro x X hx
    have hin := hp.inside
    rw [split_eq_some] at hx
    grind
  case disjoint =>
    intro x X y Y hx hy hxy
    have hd := hp.disjoint
    rw [split_eq_some] at hx hy
    grind
  case head =>
    intro base r hr
    obtain ⟨c, C, hc, hs, hbase⟩ := hp.head base r hr
    by_cases hcb : c = b
    · subst hcb
      rw [hb] at hc
      cases hc
      exact ⟨front, _, split_front, hs, hbase⟩
    · refine ⟨c, _, split_other (live hc) hcb hc, ?_⟩
      split <;> exact ⟨hs, hbase⟩
  case regions_disjoint => exact hp.regions_disjoint

/-- Joining neighbours keeps the partition. -/
theorem join (hp : Partitioned h seg) {l r keep drop : Nat} {L R : Extent τ}
    (hn : Neighbours h l r keep drop L R) :
    Partitioned (ExtentMap.join h keep drop L R) seg := by
  obtain ⟨hl, hr, hlr, hkeep⟩ := hn
  obtain ⟨R', hR', hRp, hRs, hRb, hRt⟩ := hp.next_link l L r hl hlr
  rw [hr] at hR'
  cases hR'
  have hne : r ≠ l := hp.next_ne hl hlr
  have hkd : keep ≠ drop := by omega
  have outside {x : Nat} (hd : x ≠ drop) (hk : x ≠ keep) : x ≠ l ∧ x ≠ r := by omega
  have inside {x : Nat} (h₁ : x ≠ l) (h₂ : x ≠ r) : x ≠ drop ∧ x ≠ keep := by omega
  have span {x : Nat} {X : Extent τ} (hx : ExtentMap.join h keep drop L R x = some X) :
      (x = keep ∧ X.start = L.start ∧ X.size = L.size + R.size) ∨
      (x ≠ l ∧ x ≠ r ∧ ∃ P, h x = some P ∧ X.start = P.start ∧ X.size = P.size) := by
    rcases join_eq_some.mp hx with ⟨_, rfl, rfl⟩ | ⟨hxd, hxk, P, hP, rfl⟩
    · exact .inl ⟨rfl, rfl, rfl⟩
    · obtain ⟨hxl, hxr⟩ := outside hxd hxk
      refine .inr ⟨hxl, hxr, P, hP, ?_⟩
      split_ifs <;> exact ⟨rfl, rfl⟩
  -- only the left neighbour's predecessor and the right one's successor point inside
  have toLeft {x : Nat} {P : Extent τ} (hx : h x = some P) (hxl : P.next = some l) :
      L.prev = some x := by
    obtain ⟨L', hL', hLp, _⟩ := hp.next_link x P l hx hxl
    grind
  have toRight {x : Nat} {P : Extent τ} (hx : h x = some P) (hxr : P.next = some r) : x = l := by
    obtain ⟨R', hR', hRp', _⟩ := hp.next_link x P r hx hxr
    grind
  have fromRight {x : Nat} {P : Extent τ} (hx : h x = some P) (hxr : P.prev = some r) :
      R.next = some x := by
    obtain ⟨R', hR', hRn⟩ := hp.prev_link x P r hx hxr
    grind
  have fromLeft {x : Nat} {P : Extent τ} (hx : h x = some P) (hxl : P.prev = some l) : x = r := by
    obtain ⟨L', hL', hLn⟩ := hp.prev_link x P l hx hxl
    grind
  constructor
  case pos =>
    intro x X hx
    have hpos := hp.pos
    rw [join_eq_some] at hx
    grind
  case next_link =>
    intro x X n hx hxn
    rcases join_eq_some.mp hx with ⟨_, rfl, rfl⟩ | ⟨hxd, hxk, P, hP, rfl⟩
    · obtain ⟨N, hN, hNp, hNs, hNb, hNt⟩ := hp.next_link r R n hr hxn
      have hnr : n ≠ r := hp.next_ne hr hxn
      have hnl : n ≠ l := fun he ↦ hp.prev_ne_next hr hRp (he ▸ hxn) rfl
      have hLn : L.prev ≠ some n := by
        intro hLp
        obtain ⟨Q, hQ, hQn, hQs, _⟩ := hp.prev_extent hl hLp
        rw [hN] at hQ
        cases hQ
        have := hp.pos l L hl
        omega
      refine ⟨_, join_other (inside hnl hnr).1 (inside hnl hnr).2 hN, ?_⟩
      rw [if_neg hLn, if_pos hxn]
      refine ⟨rfl, ?_, hNb.trans hRb, hNt.trans hRt⟩
      simp only
      omega
    · obtain ⟨hxl, hxr⟩ := outside hxd hxk
      by_cases hLx : L.prev = some x
      · rw [if_pos hLx] at hxn ⊢
        cases hxn
        obtain ⟨Q, hQ, _, hs, hbase, htag⟩ := hp.prev_extent hl hLx
        rw [hP] at hQ
        cases hQ
        exact ⟨_, join_keep hkd, hLx, hs, hbase, htag⟩
      · rw [if_neg hLx] at hxn ⊢
        have hPn : P.next = some n := by split at hxn <;> exact hxn
        obtain ⟨N, hN, hNp, hNs, hNb, hNt⟩ := hp.next_link x P n hP hPn
        have hnl : n ≠ l := fun he ↦ hLx (toLeft hP (he ▸ hPn))
        have hnr : n ≠ r := fun he ↦ hxl (toRight hP (he ▸ hPn))
        have hRn : R.next ≠ some n := by
          intro hRn
          obtain ⟨N', hN', hN'p, _⟩ := hp.next_link r R n hr hRn
          grind
        refine ⟨_, join_other (inside hnl hnr).1 (inside hnl hnr).2 hN, ?_⟩
        split <;> split <;> exact ⟨hNp, hNs, hNb, hNt⟩
  case prev_link =>
    intro x X p hx hxp
    rcases join_eq_some.mp hx with ⟨_, rfl, rfl⟩ | ⟨hxd, hxk, P, hP, rfl⟩
    · obtain ⟨Q, hQ, hQn⟩ := hp.prev_link l L p hl hxp
      have hpl : p ≠ l := hp.prev_ne hl hxp
      have hpr : p ≠ r := fun he ↦ hp.prev_ne_next hl hxp (he ▸ hlr) rfl
      refine ⟨_, join_other (inside hpl hpr).1 (inside hpl hpr).2 hQ, ?_⟩
      rw [if_pos hxp]
    · obtain ⟨hxl, hxr⟩ := outside hxd hxk
      by_cases hRx : R.next = some x
      · have hLx : L.prev ≠ some x := by
          intro hLp
          obtain ⟨Q, hQ, _, hQs, _⟩ := hp.prev_extent hl hLp
          obtain ⟨N, hN, _, hNs, _⟩ := hp.next_link r R x hr hRx
          rw [hQ] at hN
          cases hN
          have := hp.pos l L hl
          omega
        rw [if_neg hLx, if_pos hRx] at hxp
        cases hxp
        exact ⟨_, join_keep hkd, hRx⟩
      · have hPp : P.prev = some p := by split at hxp <;> exact hxp
        obtain ⟨Q, hQ, hQn⟩ := hp.prev_link x P p hP hPp
        have hpr : p ≠ r := fun he ↦ hRx (fromRight hP (he ▸ hPp))
        have hpl : p ≠ l := fun he ↦ hxr (fromLeft hP (he ▸ hPp))
        have hLp : L.prev ≠ some p := by
          intro hLp
          obtain ⟨Q', hQ', hQ'n⟩ := hp.prev_link l L p hl hLp
          grind
        refine ⟨_, join_other (inside hpl hpr).1 (inside hpl hpr).2 hQ, ?_⟩
        rw [if_neg hLp]
        split <;> exact hQn
  case first =>
    intro x X hx hxp
    have hfirst := hp.first
    rw [join_eq_some] at hx
    grind
  case last =>
    intro x X hx hxn
    have hlast := hp.last
    rw [join_eq_some] at hx
    grind
  case inside =>
    intro x X hx
    have hin := hp.inside
    rw [join_eq_some] at hx
    grind
  case disjoint =>
    intro x X y Y hx hy hxy
    rcases span hx with ⟨rfl, hXs, hXz⟩ | ⟨hxl, hxr, P, hP, hXs, hXz⟩
    · rcases span hy with ⟨rfl, _⟩ | ⟨hyl, hyr, Q, hQ, hYs, hYz⟩
      · exact absurd rfl hxy
      · have := hp.disjoint l L y Q hl hQ hyl.symm
        have := hp.disjoint r R y Q hr hQ hyr.symm
        have := hp.pos y Q hQ
        omega
    · rcases span hy with ⟨rfl, hYs, hYz⟩ | ⟨hyl, hyr, Q, hQ, hYs, hYz⟩
      · have := hp.disjoint l L x P hl hP hxl.symm
        have := hp.disjoint r R x P hr hP hxr.symm
        have := hp.pos x P hP
        omega
      · have := hp.disjoint x P y Q hP hQ hxy
        omega
  case head =>
    intro base q hq
    obtain ⟨c, C, hc, hs, hbase⟩ := hp.head base q hq
    have hcr : c ≠ r := by
      rintro rfl
      rw [hr] at hc
      cases hc
      obtain ⟨_, _, hLin, _⟩ := hp.inside l L hl
      have := hp.pos l L hl
      omega
    by_cases hcl : c = l
    · subst hcl
      rw [hl] at hc
      cases hc
      exact ⟨keep, _, join_keep hkd, hs, hbase⟩
    · refine ⟨c, _, join_other (inside hcl hcr).1 (inside hcl hcr).2 hc, ?_⟩
      split
      · exact ⟨hs, hbase⟩
      · split <;> exact ⟨hs, hbase⟩
  case regions_disjoint => exact hp.regions_disjoint

/-- A new region is one extent without neighbours. -/
theorem grow (hp : Partitioned h seg) {b r : Nat} (base : Nat) {t : τ} (hb : h b = none) (hr : 0 < r)
    (hfree : ∀ a q, seg a = some q → base + r ≤ a ∨ a + q ≤ base)
    (hnew : seg base = none) :
    Partitioned (update h b (some ⟨base, r, none, none, base, t⟩)) (update seg base (some r)) := by
  have live {x : Nat} {P : Extent τ} (hx : h x = some P) : x ≠ b := by grind
  have old {a q : Nat} (ha : seg a = some q) : a ≠ base := by grind
  constructor
  case pos =>
    have hpos := hp.pos
    grind [update_apply]
  case next_link =>
    intro x X n hx hxn
    by_cases hxb : x = b
    · subst hxb
      rw [update_self] at hx
      cases hx
      cases hxn
    · rw [update_of_ne hxb] at hx
      obtain ⟨N, hN, hN'⟩ := hp.next_link x X n hx hxn
      exact ⟨N, by rw [update_of_ne (live hN)]; exact hN, hN'⟩
  case prev_link =>
    intro x X p hx hxp
    by_cases hxb : x = b
    · subst hxb
      rw [update_self] at hx
      cases hx
      cases hxp
    · rw [update_of_ne hxb] at hx
      obtain ⟨Q, hQ, hQ'⟩ := hp.prev_link x X p hx hxp
      exact ⟨Q, by rw [update_of_ne (live hQ)]; exact hQ, hQ'⟩
  case first =>
    have hfirst := hp.first
    grind [update_apply]
  case last =>
    intro x X hx hxn
    by_cases hxb : x = b
    · subst hxb
      rw [update_self] at hx
      cases hx
      exact ⟨r, update_self .., rfl⟩
    · rw [update_of_ne hxb] at hx
      obtain ⟨q, hq, he⟩ := hp.last x X hx hxn
      exact ⟨q, by rw [update_of_ne (old hq)]; exact hq, he⟩
  case inside =>
    intro x X hx
    by_cases hxb : x = b
    · subst hxb
      rw [update_self] at hx
      cases hx
      exact ⟨r, update_self .., Nat.le_refl _, Nat.le_refl _⟩
    · rw [update_of_ne hxb] at hx
      obtain ⟨q, hq, he⟩ := hp.inside x X hx
      exact ⟨q, by rw [update_of_ne (old hq)]; exact hq, he⟩
  case disjoint =>
    have hd := hp.disjoint
    have hin := hp.inside
    grind [update_apply]
  case head =>
    intro a q ha
    by_cases hab : a = base
    · subst hab
      exact ⟨b, _, update_self .., rfl, rfl⟩
    · rw [update_of_ne hab] at ha
      obtain ⟨c, C, hc, hs, hbase⟩ := hp.head a q ha
      exact ⟨c, C, by rw [update_of_ne (live hc)]; exact hc, hs, hbase⟩
  case regions_disjoint =>
    intro a q c p ha hc hac
    have hd := hp.regions_disjoint
    grind [update_apply]

/-- An extent without neighbours is its whole region, and both can go. -/
theorem shrink (hp : Partitioned h seg) {b : Nat} (hb : h b = some B) (hprev : B.prev = none)
    (hnext : B.next = none) :
    Partitioned (update h b none) (update seg B.base none) := by
  have hstart := hp.first b B hb hprev
  obtain ⟨r, hr, hend⟩ := hp.last b B hb hnext
  -- any other extent of the region would overlap `B`
  have other {x : Nat} {X : Extent τ} (hx : h x = some X) (hxb : x ≠ b) : X.base ≠ B.base := by
    intro he
    obtain ⟨q, hq, hlo, hhi⟩ := hp.inside x X hx
    have := hp.disjoint x X b B hx hb hxb
    have := hp.pos x X hx
    rw [he, hr] at hq
    cases hq
    omega
  have unlinked {x : Nat} {X : Extent τ} (hx : h x = some X) : X.next ≠ some b ∧ X.prev ≠ some b := by
    constructor
    · intro hn
      obtain ⟨N, hN, hNp, _⟩ := hp.next_link x X b hx hn
      grind
    · intro hn
      obtain ⟨N, hN, hNp⟩ := hp.prev_link x X b hx hn
      grind
  have old {x : Nat} {X : Extent τ} (hx : update h b none x = some X) : x ≠ b ∧ h x = some X := by
    by_cases hxb : x = b
    · subst hxb
      rw [update_self] at hx
      cases hx
    · rw [update_of_ne hxb] at hx
      exact ⟨hxb, hx⟩
  constructor
  case pos =>
    intro x X hx
    exact hp.pos x X (old hx).2
  case next_link =>
    intro x X n hx hn
    obtain ⟨hxb, hx⟩ := old hx
    obtain ⟨N, hN, hN'⟩ := hp.next_link x X n hx hn
    have hnb : n ≠ b := fun he ↦ (unlinked hx).1 (he ▸ hn)
    exact ⟨N, by rw [update_of_ne hnb]; exact hN, hN'⟩
  case prev_link =>
    intro x X p hx hpx
    obtain ⟨hxb, hx⟩ := old hx
    obtain ⟨Q, hQ, hQ'⟩ := hp.prev_link x X p hx hpx
    have hpb : p ≠ b := fun he ↦ (unlinked hx).2 (he ▸ hpx)
    exact ⟨Q, by rw [update_of_ne hpb]; exact hQ, hQ'⟩
  case first =>
    intro x X hx
    exact hp.first x X (old hx).2
  case last =>
    intro x X hx hn
    obtain ⟨hxb, hx⟩ := old hx
    obtain ⟨q, hq, he⟩ := hp.last x X hx hn
    exact ⟨q, by rw [update_of_ne (other hx hxb)]; exact hq, he⟩
  case inside =>
    intro x X hx
    obtain ⟨hxb, hx⟩ := old hx
    obtain ⟨q, hq, he⟩ := hp.inside x X hx
    exact ⟨q, by rw [update_of_ne (other hx hxb)]; exact hq, he⟩
  case disjoint =>
    intro x X y Y hx hy hxy
    exact hp.disjoint x X y Y (old hx).2 (old hy).2 hxy
  case head =>
    intro a q ha
    by_cases hab : a = B.base
    · subst hab
      rw [update_self] at ha
      cases ha
    · rw [update_of_ne hab] at ha
      obtain ⟨c, C, hc, hs, hbase⟩ := hp.head a q ha
      have hcb : c ≠ b := by grind
      exact ⟨c, C, by rw [update_of_ne hcb]; exact hc, hs, hbase⟩
  case regions_disjoint =>
    have hd := hp.regions_disjoint
    grind [update_apply]

/-! ### The extents of a region tile it -/

private def Inside (h : Extents τ) (base b : Nat) : Prop := ∃ B, h b = some B ∧ B.base = base

private theorem linked (hp : Partitioned h seg) (base : Nat) :
    Linked (Inside h base) (nextOf h) (prevOf h) (startOf h) (endOf h) := by
  constructor
  case nonempty =>
    rintro a ⟨A, hA, _⟩
    have := hp.pos a A hA
    simp only [startOf, endOf, hA, Option.map_some, Option.getD_some]
    omega
  case next_live =>
    rintro a b ⟨A, hA, hbase⟩ hn
    rw [nextOf, hA] at hn
    obtain ⟨B, hB, hBp, hBs, hBb, _⟩ := hp.next_link a A b hA hn
    refine ⟨⟨B, hB, hBb.trans hbase⟩, ?_, ?_⟩
    · rw [prevOf, hB, Option.bind_some, hBp]
    · simp [startOf, endOf, hA, hB, hBs]
  case prev_live =>
    rintro a b ⟨A, hA, hbase⟩ hl
    rw [prevOf, hA] at hl
    obtain ⟨B, hB, hBn, _, hBb, _⟩ := hp.prev_extent hA hl
    exact ⟨⟨B, hB, hBb.symm.trans hbase⟩, by rw [nextOf, hB, Option.bind_some, hBn]⟩

/-- The links from the first extent of a region visit exactly its extents, which follow
one another from the region's start to its end and carry one tag. -/
theorem tiles (hp : Partitioned h seg) {base r : Nat} (hr : seg base = some r) :
    ∃ b B l, h b = some B ∧ B.start = base ∧ B.prev = none ∧ Chain (nextOf h) b l ∧
      Tiles (startOf h) (endOf h) base l (base + r) ∧
      (∀ c ∈ l, ∃ C, h c = some C ∧ C.base = base ∧ C.tag = B.tag) ∧
      (∀ c n, c ∈ l → nextOf h c = some n → prevOf h n = some c) ∧
      ∀ c C, h c = some C → C.base = base → c ∈ l := by
  obtain ⟨b, B, hb, hs, hbase⟩ := hp.head base r hr
  have hprev : B.prev = none := by
    cases hl : B.prev with
    | none => rfl
    | some p =>
      obtain ⟨P, hP, _, hPs, hPb, _⟩ := hp.prev_extent hb hl
      obtain ⟨_, _, hlo, _⟩ := hp.inside p P hP
      have := hp.pos p P hP
      omega
  have hbound : ∀ a, Inside h base a → endOf h a ≤ base + r := by
    rintro a ⟨A, hA, hAb⟩
    obtain ⟨q, hq, _, hhi⟩ := hp.inside a A hA
    rw [hAb, hr] at hq
    cases hq
    simpa [endOf, hA, hAb] using hhi
  obtain ⟨l, e, hc, ht, hlive, z, hz, hzn, hze⟩ :=
    (linked hp base).exists_chain hbound b ⟨B, hb, hbase⟩
  have hstart : startOf h b = base := by simp [startOf, hb, hs]
  -- the last extent ends where the region does
  have hend : e = base + r := by
    obtain ⟨Z, hZ, hZb⟩ := hlive z hz
    rw [nextOf, hZ] at hzn
    obtain ⟨q, hq, hZe⟩ := hp.last z Z hZ hzn
    rw [hZb, hr] at hq
    cases hq
    rw [← hze]
    simpa [endOf, hZ, hZb] using hZe
  have htag : ∀ c l, Chain (nextOf h) c l → ∀ C, h c = some C →
      ∀ d ∈ l, ∃ D, h d = some D ∧ D.tag = C.tag := by
    intro c l hcl
    induction hcl with
    | last _ =>
      intro C hC d hd
      rw [List.mem_singleton.mp hd]
      exact ⟨C, hC, rfl⟩
    | @link x y l hxy _ ih =>
      intro C hC d hd
      rw [nextOf, hC] at hxy
      obtain ⟨N, hN, _, _, _, hNt⟩ := hp.next_link x C y hC hxy
      rcases List.mem_cons.mp hd with rfl | hm
      · exact ⟨C, hC, rfl⟩
      · obtain ⟨D, hD, hDt⟩ := ih N hN d hm
        exact ⟨D, hD, hDt.trans hNt⟩
  refine ⟨b, B, l, hb, hs, hprev, hc, by rw [← hend, ← hstart]; exact ht, ?_, ?_, ?_⟩
  · intro c hcl
    obtain ⟨C, hC, hCb⟩ := hlive c hcl
    obtain ⟨D, hD, hDt⟩ := htag b l hc B hb c hcl
    rw [hC] at hD
    cases hD
    exact ⟨C, hC, hCb, hDt⟩
  · intro c n hcl hn
    exact ((linked hp base).next_live c n (hlive c hcl) hn).2.1
  · intro c C hC hCb
    refine (linked hp base).mem_chain hc (Inside h base) ?_ ?_ c ⟨C, hC, hCb⟩ ⟨C, hC, hCb⟩
    · intro x y hx _ hl
      exact ((linked hp base).prev_live x y hx hl).1
    · rintro x ⟨X, hX, hXb⟩ _ hl
      rw [prevOf, hX] at hl
      have hXs := hp.first x X hX hl
      exact hp.start_inj hX hb (by omega)

end Partitioned
end Hisab.Base.ExtentMap
