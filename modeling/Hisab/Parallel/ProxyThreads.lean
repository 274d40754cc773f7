import Mathlib.Data.List.Range

/-!
# The threads of a proxy

`allocate_threads` and `fill_threads_for_nested_proxy`
(`parallel_thread_pool.cpp:431–461, 638–679`) over the proxies allocated so far, which are
named by their positions. A proxy and its ancestors together use an initial segment of the
pool, and a nested proxy takes its caller's thread and the next ones after that segment.
-/

namespace Hisab.Parallel

open List Option

/-- `proxy_data` as its allocation leaves it; pool threads are named by their positions.
`creator` and `requested` record the thread and the job that asked for it, and the count. -/
structure PoolProxy where
  parent : Option Nat
  threads : List Nat
  creator : Option (Nat × Nat)
  requested : Nat
deriving Repr, DecidableEq

/-- The count that `allocate_threads` goes by (`parallel_thread_pool.cpp:433–436`). -/
def effectiveCount (poolSize threadCount : Nat) : Nat :=
  if threadCount = 0 ∨ poolSize < threadCount then poolSize else threadCount

/-- The walk up from a proxy, itself first; `fuel` bounds its length. -/
def ancestry (proxies : List PoolProxy) : Nat → Option Nat → List PoolProxy
  | 0, _ => []
  | _ + 1, none => []
  | fuel + 1, some p =>
    match proxies[p]? with
    | some x => x :: ancestry proxies fuel x.parent
    | none => []

/-- `is_free` (`parallel_thread_pool.cpp:646–665`). -/
def isFree (proxies : List PoolProxy) (parent t : Nat) : Bool :=
  (ancestry proxies proxies.length (some parent)).all fun x ↦ !x.threads.contains t

/-- The loop over the pool (`parallel_thread_pool.cpp:667–678`). -/
def fillThreads (free : Nat → Bool) (maxCount : Nat) : List Nat → List Nat → List Nat
  | [], threads => threads
  | t :: ts, threads =>
    let threads := if free t then threads ++ [t] else threads
    if threads.length = maxCount then threads else fillThreads free maxCount ts threads

/-- `fill_threads_for_nested_proxy` (`parallel_thread_pool.cpp:638–679`). -/
def fillThreadsForNestedProxy (poolSize : Nat) (proxies : List PoolProxy) (parent : Nat)
    (threads : List Nat) (maxCount : Nat) : List Nat :=
  if (proxies[parent]?.map fun x ↦ x.threads.length) = some poolSize then threads
  else fillThreads (isFree proxies parent) maxCount (List.range poolSize) threads

/-- `allocate_threads` from outside the pool (`parallel_thread_pool.cpp:452–457`). -/
def topLevelProxy (poolSize threadCount : Nat) : PoolProxy where
  parent := none
  threads := List.range (effectiveCount poolSize threadCount)
  creator := none
  requested := threadCount

/-- `allocate_threads` in a job of proxy `parent` (`parallel_thread_pool.cpp:442–448`). -/
def nestedProxy (poolSize : Nat) (proxies : List PoolProxy) (parent caller job threadCount : Nat) :
    PoolProxy where
  parent := some parent
  threads := fillThreadsForNestedProxy poolSize proxies parent [caller]
    (effectiveCount poolSize threadCount)
  creator := some (caller, job)
  requested := threadCount

/-- Proxy `p` or one of its ancestors uses thread `t`. -/
inductive UsedBy (proxies : List PoolProxy) : Nat → Nat → Prop
  | own {p t : Nat} {x : PoolProxy} : proxies[p]? = some x → t ∈ x.threads → UsedBy proxies p t
  | inherited {p q t : Nat} {x : PoolProxy} : proxies[p]? = some x → x.parent = some q →
      UsedBy proxies q t → UsedBy proxies p t

/-- Proxy `p` and its ancestors use the first `m` threads. -/
def Extent (proxies : List PoolProxy) (p m : Nat) : Prop := ∀ t, UsedBy proxies p t ↔ t < m

/-- The threads of a proxy: the first of the pool, or the caller's, which an ancestor uses,
and then the next ones that no ancestor uses. -/
structure ProxyOk (poolSize : Nat) (proxies : List PoolProxy) (p : Nat) (x : PoolProxy) : Prop where
  topLevel : x.parent = none → x.creator = none ∧ ∃ m ≤ poolSize, x.threads = List.range m ∧
    (0 < poolSize → 0 < m)
  nested : ∀ q, x.parent = some q → q < p ∧ ∃ i job k r, x.creator = some (i, job) ∧
    Extent proxies q k ∧ i < k ∧ k + r ≤ poolSize ∧ x.threads = i :: List.range' k r ∧
    (x.requested ≠ 0 → r + 1 ≤ x.requested)

/-- Every proxy allocated so far. -/
def ProxiesOk (poolSize : Nat) (proxies : List PoolProxy) : Prop :=
  ∀ p x, proxies[p]? = some x → ProxyOk poolSize proxies p x

variable {poolSize : Nat} {proxies : List PoolProxy} {x : PoolProxy}

theorem effectiveCount_le (poolSize threadCount : Nat) :
    effectiveCount poolSize threadCount ≤ poolSize := by
  unfold effectiveCount
  split <;> omega

theorem effectiveCount_pos {threadCount : Nat} (h : 0 < poolSize) :
    0 < effectiveCount poolSize threadCount := by
  unfold effectiveCount
  split <;> omega

theorem effectiveCount_le_requested {threadCount : Nat} (h : threadCount ≠ 0) :
    effectiveCount poolSize threadCount ≤ threadCount := by
  unfold effectiveCount
  split <;> omega

/-- From fewer threads than wanted, the loop adds the first free ones. -/
theorem fillThreads_eq (free : Nat → Bool) {maxCount : Nat} (ts : List Nat) {threads : List Nat}
    (h : threads.length < maxCount) :
    fillThreads free maxCount ts threads =
      threads ++ (ts.filter free).take (maxCount - threads.length) := by
  induction ts generalizing threads with
  | nil => simp [fillThreads]
  | cons t ts ih =>
    rw [fillThreads]
    cases hfree : free t with
    | false =>
      simp only [Bool.false_eq_true, if_false, if_neg (Nat.ne_of_lt h)]
      rw [ih h, filter_cons_of_neg (by simp [hfree])]
    | true =>
      simp only [if_true, length_append, length_singleton]
      rw [filter_cons_of_pos hfree]
      split
      next hfull =>
        have hone : maxCount - threads.length = 1 := by omega
        rw [hone, take_succ_cons, take_zero]
      next hmore =>
        have hrest : maxCount - threads.length = maxCount - (threads.length + 1) + 1 := by omega
        rw [ih (by simp; omega), hrest]
        simp

/-- The threads of the pool past the first `k`. -/
theorem filter_range_le {k n : Nat} (h : k ≤ n) :
    (List.range n).filter (fun t ↦ decide (k ≤ t)) = List.range' k (n - k) := by
  have hsplit : range n = range' 0 k ++ range' k (n - k) := by
    rw [range_eq_range']
    have := range'_append_1 (s := 0) (m := k) (n := n - k)
    rw [Nat.zero_add, Nat.add_sub_cancel' h] at this
    exact this.symm
  rw [hsplit, filter_append, filter_eq_nil_iff.mpr, filter_eq_self.mpr]
  · rfl
  · intro t ht
    simpa using (mem_range'_1.mp ht).1
  · intro t ht
    have := (mem_range'_1.mp ht).2
    simpa using this

/-- The walk up sees the threads that the proxy and its ancestors use. -/
theorem mem_ancestry (h : ProxiesOk poolSize proxies) {p t : Nat} {fuel : Nat} (hf : p < fuel) :
    (∃ x ∈ ancestry proxies fuel (some p), t ∈ x.threads) ↔ UsedBy proxies p t := by
  induction p using Nat.strong_induction_on generalizing fuel with
  | _ p ih =>
    obtain ⟨fuel, rfl⟩ := Nat.exists_eq_add_one_of_ne_zero (Nat.ne_zero_of_lt hf)
    rw [ancestry]
    cases hp : proxies[p]? with
    | none =>
      refine ⟨fun ⟨x, hx, _⟩ ↦ (by cases hx), fun hused ↦ ?_⟩
      cases hused <;> simp_all
    | some x =>
      simp only [mem_cons, exists_eq_or_imp]
      constructor
      · rintro (ht | hrest)
        · exact .own hp ht
        · cases hq : x.parent with
          | none =>
            rw [hq] at hrest
            obtain ⟨y, hy, -⟩ := hrest
            cases fuel <;> cases hy
          | some q =>
            rw [hq] at hrest
            have hlt := ((h p x hp).nested q hq).1
            exact .inherited hp hq ((ih q hlt (by omega)).mp hrest)
      · intro hused
        cases hused with
        | own hx ht =>
          rw [hp, some.injEq] at hx
          exact .inl (hx ▸ ht)
        | @inherited _ q _ _ hx hq ht =>
          rw [hp, some.injEq] at hx
          rw [← hx] at hq
          have hlt := ((h p x hp).nested q hq).1
          rw [hq]
          exact .inr ((ih q hlt (by omega)).mpr ht)

/-- `is_free` says that neither the parent nor an ancestor of it uses the thread. -/
theorem isFree_iff (h : ProxiesOk poolSize proxies) {q t : Nat} (hq : q < proxies.length) :
    isFree proxies q t = true ↔ ¬UsedBy proxies q t := by
  rw [← mem_ancestry h hq, isFree]
  simp

/-- A further proxy leaves what the others use. -/
theorem usedBy_append (h : ProxiesOk poolSize proxies) (y : PoolProxy) {p t : Nat}
    (hp : p < proxies.length) : UsedBy (proxies ++ [y]) p t ↔ UsedBy proxies p t := by
  induction p using Nat.strong_induction_on with
  | _ p ih =>
    have hget : (proxies ++ [y])[p]? = proxies[p]? := getElem?_append_left hp
    constructor
    · intro hused
      cases hused with
      | own hx ht => exact .own (hget ▸ hx) ht
      | inherited hx hq ht =>
        rw [hget] at hx
        have hlt := ((h p _ hx).nested _ hq).1
        exact .inherited hx hq ((ih _ hlt (by omega)).mp ht)
    · intro hused
      cases hused with
      | own hx ht => exact .own (hget.trans hx) ht
      | inherited hx hq ht =>
        have hlt := ((h p _ hx).nested _ hq).1
        exact .inherited (hget.trans hx) hq ((ih _ hlt (by omega)).mpr ht)

theorem Extent.append (hok : ProxiesOk poolSize proxies) {p m : Nat} (h : Extent proxies p m)
    (hp : p < proxies.length) (y : PoolProxy) : Extent (proxies ++ [y]) p m :=
  fun t ↦ (usedBy_append hok y hp).trans (h t)

theorem ProxyOk.append (hok : ProxiesOk poolSize proxies) {p : Nat}
    (h : ProxyOk poolSize proxies p x) (hp : p ≤ proxies.length) (y : PoolProxy) :
    ProxyOk poolSize (proxies ++ [y]) p x where
  topLevel := h.topLevel
  nested q hq := by
    obtain ⟨hlt, i, job, k, r, hc, he, hrest⟩ := h.nested q hq
    exact ⟨hlt, i, job, k, r, hc, he.append hok (by omega) y, hrest⟩

/-- A proxy and its ancestors use an initial segment of the pool. -/
theorem extent_exists (h : ProxiesOk poolSize proxies) {p : Nat} (hp : proxies[p]? = some x) :
    ∃ m ≤ poolSize, Extent proxies p m := by
  cases hq : x.parent with
  | none =>
    obtain ⟨-, m, hm, hthreads, -⟩ := (h p x hp).topLevel hq
    refine ⟨m, hm, fun t ↦ ⟨fun hused ↦ ?_, fun ht ↦ .own hp (by simpa [hthreads] using ht)⟩⟩
    cases hused with
    | own hx ht =>
      rw [hp, some.injEq] at hx
      simpa [← hx, hthreads] using ht
    | inherited hx hq' _ =>
      rw [hp, some.injEq] at hx
      rw [← hx, hq] at hq'
      cases hq'
  | some q =>
    obtain ⟨-, i, job, k, r, -, he, hi, hr, hthreads, -⟩ := (h p x hp).nested q hq
    refine ⟨k + r, hr, fun t ↦ ⟨fun hused ↦ ?_, fun ht ↦ ?_⟩⟩
    · cases hused with
      | own hx ht =>
        rw [hp, some.injEq] at hx
        rw [← hx, hthreads, mem_cons, mem_range'_1] at ht
        omega
      | inherited hx hq' ht =>
        rw [hp, some.injEq] at hx
        rw [← hx, hq, some.injEq] at hq'
        have := (he t).mp (hq' ▸ ht)
        omega
    · by_cases htk : t < k
      · exact .inherited hp hq ((he t).mpr htk)
      · refine .own hp ?_
        rw [hthreads, mem_cons, mem_range'_1]
        omega

/-- A nested proxy takes the caller's thread and the first ones past those its parent and the
ancestors of it use, up to the count. -/
theorem nestedProxy_threads (h : ProxiesOk poolSize proxies) {q i k : Nat} (job threadCount : Nat)
    (hq : q < proxies.length) (he : Extent proxies q k) (hi : i < k) (hk : k ≤ poolSize) :
    ∃ r, (nestedProxy poolSize proxies q i job threadCount).threads = i :: List.range' k r ∧
      k + r ≤ poolSize ∧ r + 1 ≤ effectiveCount poolSize threadCount := by
  have hpos : 0 < effectiveCount poolSize threadCount := effectiveCount_pos (by omega)
  have hnil : i :: range' k 0 = [i] := by simp
  simp only [nestedProxy, fillThreadsForNestedProxy]
  split
  · exact ⟨0, hnil.symm, hk, hpos⟩
  · have hfree : ∀ t, isFree proxies q t = decide (k ≤ t) := by
      intro t
      rw [Bool.eq_iff_iff, isFree_iff h hq, he t, decide_eq_true_iff, Nat.not_lt]
    by_cases hone : effectiveCount poolSize threadCount = 1
    · -- One thread is wanted and there: the first thread of the pool is not free.
      refine ⟨0, ?_, hk, hpos⟩
      obtain ⟨n, rfl⟩ := Nat.exists_eq_add_one_of_ne_zero (show poolSize ≠ 0 by omega)
      rw [range_succ_eq_map, fillThreads, hfree, hone]
      simp [show ¬k ≤ 0 by omega]
    · rw [fillThreads_eq _ _ (by simp; omega), filter_congr fun t _ ↦ hfree t, filter_range_le hk]
      refine ⟨min (effectiveCount poolSize threadCount - 1) (poolSize - k), ?_, by omega, by omega⟩
      rw [length_singleton, singleton_append]
      by_cases hle : poolSize - k ≤ effectiveCount poolSize threadCount - 1
      · rw [take_range'_of_length_le hle, Nat.min_eq_right hle]
      · rw [take_range'_of_length_ge (by omega), Nat.min_eq_left (by omega)]

/-- Allocation keeps the threads of every proxy right. -/
theorem ProxiesOk.append (h : ProxiesOk poolSize proxies) {y : PoolProxy}
    (hy : ProxyOk poolSize proxies proxies.length y) : ProxiesOk poolSize (proxies ++ [y]) := by
  intro p x hp
  rcases Nat.lt_trichotomy p proxies.length with hlt | rfl | hgt
  · rw [getElem?_append_left hlt] at hp
    exact (h p x hp).append h (by omega) y
  · rw [getElem?_concat_length, some.injEq] at hp
    exact hp ▸ hy.append h (by omega) y
  · rw [getElem?_eq_none (by simp; omega)] at hp
    cases hp

theorem ProxiesOk.topLevelProxy (threadCount : Nat) :
    ProxyOk poolSize proxies proxies.length (topLevelProxy poolSize threadCount) where
  topLevel _ := ⟨rfl, _, effectiveCount_le _ _, rfl, effectiveCount_pos⟩
  nested q hq := by cases hq

theorem ProxiesOk.nestedProxy (h : ProxiesOk poolSize proxies) {q i : Nat} (job threadCount : Nat)
    (hq : proxies[q]? = some x) (hi : i ∈ x.threads) : ProxyOk poolSize proxies proxies.length
      (nestedProxy poolSize proxies q i job threadCount) where
  topLevel hnone := by cases hnone
  nested q' hq' := by
    obtain rfl : q = q' := some.inj hq'
    have hlt : q < proxies.length := (List.getElem?_eq_some_iff.mp hq).1
    obtain ⟨k, hk, he⟩ := extent_exists h hq
    have hik : i < k := (he i).mp (.own hq hi)
    obtain ⟨r, hthreads, hr, hcount⟩ := nestedProxy_threads h job threadCount hlt he hik hk
    exact ⟨hlt, i, job, k, r, rfl, he, hik, hr, hthreads,
      fun hne ↦ hcount.trans (effectiveCount_le_requested hne)⟩

/-- The threads of a proxy are pool threads. -/
theorem ProxyOk.lt {p : Nat} (h : ProxyOk poolSize proxies p x) {t : Nat} (ht : t ∈ x.threads) :
    t < poolSize := by
  cases hq : x.parent with
  | none =>
    obtain ⟨-, m, hm, hthreads, -⟩ := h.topLevel hq
    rw [hthreads, mem_range] at ht
    omega
  | some q =>
    obtain ⟨-, i, job, k, r, -, -, hi, hr, hthreads, -⟩ := h.nested q hq
    rw [hthreads, mem_cons, mem_range'_1] at ht
    omega

end Hisab.Parallel
