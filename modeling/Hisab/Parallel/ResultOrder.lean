import Hisab.Parallel.ResultTaskQueue

/-!
# Where every task and result of the queue is

Every id is queued, held by a worker, in the heap or popped, at most once; without a buffer
limit none is lost, and the id pushed last never is. Popped ids increase.
-/

namespace Hisab.Parallel

open Base Function List ResultWorker ResultQueue

namespace ResultQueue

variable {R : Type}

theorem insertById_perm (p : Nat × R) (l : List (Nat × R)) : (insertById p l).Perm (p :: l) := by
  induction l with
  | nil => exact List.Perm.refl _
  | cons q qs ih =>
    rw [insertById]
    split
    · exact List.Perm.refl _
    · exact (ih.cons q).trans (.swap p q qs)

/-- Insertion of a new id keeps the order. -/
theorem insertById_pairwise {p : Nat × R} {l : List (Nat × R)}
    (hl : l.Pairwise (·.1 < ·.1)) (hp : p.1 ∉ l.map (·.1)) :
    (insertById p l).Pairwise (·.1 < ·.1) := by
  induction l with
  | nil => simp [insertById]
  | cons q qs ih =>
    obtain ⟨hq, hqs⟩ := pairwise_cons.mp hl
    simp only [map_cons, mem_cons, not_or] at hp
    rw [insertById]
    split
    next hlt =>
      refine pairwise_cons.mpr ⟨fun r hr ↦ ?_, hl⟩
      rcases mem_cons.mp hr with rfl | hr
      · exact hlt
      · exact Nat.lt_trans hlt (hq r hr)
    next hge =>
      refine pairwise_cons.mpr ⟨fun r hr ↦ ?_, ih hqs hp.2⟩
      rcases mem_cons.mp ((insertById_perm p qs).mem_iff.mp hr) with rfl | hr
      · omega
      · exact hq r hr

end ResultQueue

/-- The id of the task a worker holds. -/
def ResultWorker.taskId {T R : Type} : ResultWorker T R → Option Nat
  | .running id _ => some id
  | .ran id _ => some id
  | _ => none

namespace ResultTaskQueue

variable {T R : Type}

/-- The ids queued, held by workers, in the heap and popped. -/
def located (threads : Nat) (s : ResultTaskQueue T R) : List Nat :=
  s.tasks.tasks.map (·.1) ++ heldBy ResultWorker.taskId threads s.worker ++
    s.results.results.map (·.1) ++ s.popped.map (·.1)

/-- The value at an id is the task's result. -/
def IsResult (run : T → R) (s : ResultTaskQueue T R) (p : Nat × R) : Prop :=
  ∃ task, s.pushed[p.1]? = some task ∧ p.2 = run task

/-- What holds in every state of a queue. -/
structure Inv (run : T → R) (threads : Nat) (s : ResultTaskQueue T R) : Prop where
  count : s.tasks.nextTaskId = s.pushed.length
  done : s.tasks.done = true → s.client = .destroying
  buffer : s.results.strictOrdering = true → s.tasks.bufferSize ≤ 0
  workers : ∀ i, threads ≤ i → s.worker i = .waiting
  nodup : (located threads s).Nodup
  lt : ∀ id ∈ located threads s, id < s.pushed.length
  last : ∀ n, s.pushed.length = n + 1 → n ∈ located threads s
  all : s.results.strictOrdering = true → ∀ id < s.pushed.length, id ∈ located threads s
  task : ∀ t ∈ s.tasks.tasks, s.pushed[t.1]? = some t.2
  running : ∀ i id task, s.worker i = .running id task → s.pushed[id]? = some task
  ran : ∀ i id result, s.worker i = .ran id result → IsResult run s (id, result)
  result : ∀ p ∈ s.results.results, s.results.nextResultId ≤ p.1 ∧ IsResult run s p
  sorted : s.results.results.Pairwise (·.1 < ·.1)
  popped : ∀ p ∈ s.popped, p.1 < s.results.nextResultId ∧ IsResult run s p
  increasing : s.popped.Pairwise (·.1 < ·.1)
  next_le : s.results.nextResultId ≤ s.pushed.length
  newest : ∀ n, s.results.nextResultId = n + 1 → n ∈ s.popped.map (·.1)
  inOrder : s.results.strictOrdering = true → s.popped.map (·.1) = List.range s.results.nextResultId
  waiting : s.client = .checking ∨ s.client = .blocked → s.results.nextResultId < s.pushed.length
  blocked : s.client = .blocked → s.results.ready = true → ∃ i, s.worker i = .notifying

variable {run : T → R} {threads : Nat} {s : ResultTaskQueue T R}

theorem Inv.create (strictOrdering : Bool) (bufferSize : Int) :
    Inv run threads (create strictOrdering bufferSize) := by
  constructor
  case buffer =>
    intro h
    simp [ResultTaskQueue.create, show strictOrdering = true from h]
  all_goals simp [ResultTaskQueue.create, located, heldBy, taskId]

/-- A step of the client that moves no task. -/
theorem Inv.withClient (h : Inv run threads s) {c : ResultClient}
    (hdone : s.tasks.done = true → c = .destroying)
    (hwaiting : c = .checking ∨ c = .blocked → s.results.nextResultId < s.pushed.length)
    (hblocked : c = .blocked → s.results.ready = false) :
    Inv run threads { s with client := c } :=
  { h with
    done := hdone
    waiting := hwaiting
    blocked := fun hc hready ↦ by
      rw [show s.results.ready = false from hblocked hc] at hready
      cases hready }

omit run in
theorem mem_located {id : Nat} : id ∈ located threads s ↔
    id ∈ s.tasks.tasks.map (·.1) ∨ id ∈ heldBy ResultWorker.taskId threads s.worker ∨
      id ∈ s.results.results.map (·.1) ∨ id ∈ s.popped.map (·.1) := by
  simp only [located, mem_append, or_assoc]

/-- A push: the new id is queued, and only older ones are dropped. -/
theorem Inv.push (h : Inv run threads s) (hidle : s.client = .idle) (task : T) :
    Inv run threads { s with tasks := s.tasks.push task, pushed := s.pushed ++ [task] } := by
  have hdone : s.tasks.done = false := by
    cases hd : s.tasks.done with
    | false => rfl
    | true => rw [h.done hd] at hidle; cases hidle
  have htasks : (s.tasks.push task).tasks =
      TaskQueue.dropOldest s.tasks.bufferSize (s.tasks.tasks ++ [(s.pushed.length, task)]) := by
    simp [TaskQueue.push, hdone, h.count]
  have hsub := TaskQueue.dropOldest_suffix s.tasks.bufferSize
    (s.tasks.tasks ++ [(s.pushed.length, task)])
  have hold : ∀ {id a}, s.pushed[id]? = some a → (s.pushed ++ [task])[id]? = some a :=
    fun {id a} hid ↦ by rwa [getElem?_append_left (getElem?_eq_some_iff.mp hid).1]
  -- The new queue's ids are among the old ids and the new one.
  have hperm : (located threads { s with
        tasks := { s.tasks with tasks := s.tasks.tasks ++ [(s.pushed.length, task)] } }).Perm
      (s.pushed.length :: located threads s) := by
    simp only [located, map_append, append_assoc]
    exact perm_middle
  have hsubl : (located threads
      { s with tasks := s.tasks.push task, pushed := s.pushed ++ [task] }).Sublist
      (located threads { s with
        tasks := { s.tasks with tasks := s.tasks.tasks ++ [(s.pushed.length, task)] } }) := by
    simp only [located, htasks]
    exact (((hsub.sublist.map _).append_right _).append_right _).append_right _
  have hnew : s.pushed.length ∉ located threads s := fun hin ↦ Nat.lt_irrefl _ (h.lt _ hin)
  exact { h with
      count := by simp [TaskQueue.push, hdone, h.count]
      done := by simp [TaskQueue.push, hdone]
      buffer := by simpa [TaskQueue.push, hdone] using h.buffer
      nodup := hsubl.nodup (hperm.nodup_iff.mpr (nodup_cons.mpr ⟨hnew, h.nodup⟩))
      lt := by
        intro id hid
        simp only [length_append, length_singleton]
        rcases mem_cons.mp (hperm.mem_iff.mp (hsubl.mem hid)) with rfl | hid
        · omega
        · have := h.lt id hid
          omega
      last := by
        intro n hn
        simp only [length_append, length_singleton, Nat.add_right_cancel_iff] at hn
        refine mem_located.mpr (.inl (mem_map.mpr ⟨(n, task), ?_, rfl⟩))
        simp only [htasks, hn]
        exact TaskQueue.mem_dropOldest_last ..
      all := by
        intro hs id hid
        simp only [length_append] at hid
        have hkeep : (s.tasks.push task).tasks = s.tasks.tasks ++ [(s.pushed.length, task)] := by
          rw [htasks, TaskQueue.dropOldest_of_nonpos (h.buffer hs)]
        have hmem : id ∈ s.pushed.length :: located threads s := by
          rcases Nat.lt_succ_iff_lt_or_eq.mp hid with hid | rfl
          · exact mem_cons_of_mem _ (h.all hs id hid)
          · exact mem_cons_self
        have := hperm.mem_iff.mpr hmem
        simpa only [located, hkeep] using this
      task := by
        intro t ht
        have hin := hsub.mem (by rw [← htasks]; exact ht)
        rcases mem_append.mp hin with hin | hin
        · exact hold (h.task t hin)
        · rw [mem_singleton.mp hin]
          simp
      running := fun i id a hw ↦ hold (h.running i id a hw)
      ran := fun i id r hw ↦ by
        obtain ⟨a, ha, hr⟩ := h.ran i id r hw
        exact ⟨a, hold ha, hr⟩
      result := fun p hp ↦ by
        obtain ⟨hle, a, ha, hr⟩ := h.result p hp
        exact ⟨hle, a, hold ha, hr⟩
      popped := fun p hp ↦ by
        obtain ⟨hlt, a, ha, hr⟩ := h.popped p hp
        exact ⟨hlt, a, hold ha, hr⟩
      next_le := by
        have := h.next_le
        simp only [length_append]
        omega
      waiting := by simp [hidle]
      blocked := by simp [hidle] }

section Workers

variable (h : Inv run threads s)

include h in
/-- A thread that is not waiting for a task is one of the workers. -/
theorem Inv.thread_lt {i : Nat} (hw : s.worker i ≠ .waiting) : i < threads := by
  by_contra hge
  exact hw (h.workers i (Nat.le_of_not_lt hge))

include h in
private theorem Inv.worker_update {i : Nat} (hi : i < threads) {w : ResultWorker T R} :
    ∀ j, threads ≤ j → update s.worker i w j = .waiting := by
  intro j hj
  rw [update_of_ne (by omega)]
  exact h.workers j hj

include h in
/-- A step that keeps every id somewhere keeps what is said of all ids. -/
private theorem Inv.located_congr {t : ResultTaskQueue T R} (hpushed : t.pushed = s.pushed)
    (hstrict : t.results.strictOrdering = s.results.strictOrdering)
    (hperm : (located threads t).Perm (located threads s)) :
    (located threads t).Nodup ∧ (∀ id ∈ located threads t, id < t.pushed.length) ∧
      (∀ n, t.pushed.length = n + 1 → n ∈ located threads t) ∧
      (t.results.strictOrdering = true → ∀ id < t.pushed.length, id ∈ located threads t) := by
  rw [hpushed, hstrict]
  refine ⟨hperm.nodup_iff.mpr h.nodup, fun id hid ↦ h.lt id (hperm.mem_iff.mp hid),
    fun n hn ↦ hperm.mem_iff.mpr (h.last n hn), fun hs id hid ↦ hperm.mem_iff.mpr (h.all hs id hid)⟩

include h in
/-- A worker takes the first task. -/
theorem Inv.take {i : Nat} (hi : i < threads) (hw : s.worker i = .waiting) {t : Nat × T}
    {ts : List (Nat × T)} (hts : s.tasks.tasks = t :: ts) :
    Inv run threads { s with
      tasks := { s.tasks with tasks := ts }
      worker := update s.worker i (.running t.1 t.2) } := by
  let s' : ResultTaskQueue T R := { s with
    tasks := { s.tasks with tasks := ts }
    worker := update s.worker i (.running t.1 t.2) }
  have hperm : (located threads s').Perm (located threads s) := by
    refine perm_iff_count.mpr fun a ↦ ?_
    have := count_heldBy taskId s.worker hi (.running t.1 t.2) a
    simp only [s', located, hts, hw, taskId, Option.toList, map_cons,
      count_append, count_cons, count_nil] at this ⊢
    omega
  obtain ⟨hnodup, hlt, hlast, hall⟩ := h.located_congr (t := s') rfl rfl hperm
  exact { h with
      workers := h.worker_update hi
      nodup := hnodup
      lt := hlt
      last := hlast
      all := hall
      task := fun u hu ↦ h.task u (by rw [hts]; exact mem_cons_of_mem _ hu)
      running := by
        intro j id task hj
        rcases update_eq_cases hj with ⟨_, hj⟩ | ⟨_, hj⟩
        · cases hj
          exact h.task t (by rw [hts]; exact mem_cons_self)
        · exact h.running j id task hj
      ran := fun j id result hj ↦ h.ran j id result (eq_of_update_eq hj (by simp))
      blocked := by
        intro hc hready
        obtain ⟨j, hj⟩ := h.blocked hc hready
        have hne : j ≠ i := fun hji ↦ by rw [hji, hw] at hj; cases hj
        exact ⟨j, (update_of_ne hne _ _).trans hj⟩ }

include h in
/-- A worker has run its task. -/
theorem Inv.finish {i id : Nat} {task : T} (hw : s.worker i = .running id task) :
    Inv run threads { s with worker := update s.worker i (.ran id (run task)) } := by
  have hi : i < threads := h.thread_lt (by rw [hw]; simp)
  let s' : ResultTaskQueue T R := { s with worker := update s.worker i (.ran id (run task)) }
  have hperm : (located threads s').Perm (located threads s) := by
    refine perm_iff_count.mpr fun a ↦ ?_
    have := count_heldBy taskId s.worker hi (.ran id (run task)) a
    simp only [hw, taskId, Option.toList] at this
    simp only [s', located, count_append]
    omega
  obtain ⟨hnodup, hlt, hlast, hall⟩ := h.located_congr (t := s') rfl rfl hperm
  exact { h with
      workers := h.worker_update hi
      nodup := hnodup
      lt := hlt
      last := hlast
      all := hall
      running := fun j id' task' hj ↦ h.running j id' task' (eq_of_update_eq hj (by simp))
      ran := by
        intro j id' result hj
        rcases update_eq_cases hj with ⟨_, hj⟩ | ⟨_, hj⟩
        · cases hj
          exact ⟨task, h.running i id task hw, rfl⟩
        · exact h.ran j id' result hj
      blocked := by
        intro hc hready
        obtain ⟨j, hj⟩ := h.blocked hc hready
        have hne : j ≠ i := fun hji ↦ by rw [hji, hw] at hj; cases hj
        exact ⟨j, (update_of_ne hne _ _).trans hj⟩ }

include h in
/-- A step of a worker that holds no task, to a state in which it holds none. -/
private theorem Inv.worker_without_task {i : Nat} (hi : i < threads)
    {w : ResultWorker T R} (hbefore : (s.worker i).taskId = none) (hafter : w.taskId = none)
    {c : ResultClient} (hdone : s.tasks.done = true → c = .destroying)
    (hwaiting : c = .checking ∨ c = .blocked → s.results.nextResultId < s.pushed.length)
    (hblocked : c = .blocked → s.results.ready = true → ∃ j, update s.worker i w j = .notifying) :
    Inv run threads { s with worker := update s.worker i w, client := c } := by
  let s' : ResultTaskQueue T R := { s with worker := update s.worker i w, client := c }
  have hperm : (located threads s').Perm (located threads s) := by
    refine perm_iff_count.mpr fun a ↦ ?_
    have := count_heldBy taskId s.worker hi w a
    rw [hbefore, hafter] at this
    simp only [s', located, count_append]
    omega
  obtain ⟨hnodup, hlt, hlast, hall⟩ := h.located_congr (t := s') rfl rfl hperm
  exact { h with
      done := hdone
      workers := h.worker_update hi
      nodup := hnodup
      lt := hlt
      last := hlast
      all := hall
      running := by
        intro j id task hj
        refine h.running j id task (eq_of_update_eq hj fun heq ↦ ?_)
        rw [heq] at hafter
        cases hafter
      ran := by
        intro j id result hj
        refine h.ran j id result (eq_of_update_eq hj fun heq ↦ ?_)
        rw [heq] at hafter
        cases hafter
      waiting := hwaiting
      blocked := hblocked }

/-- The ids but the one worker `i` holds. -/
private def elsewhere (threads : Nat) (s : ResultTaskQueue T R) (i : Nat) : List Nat :=
  s.tasks.tasks.map (·.1) ++ heldByOthers ResultWorker.taskId threads s.worker i ++
    s.results.results.map (·.1) ++ s.popped.map (·.1)

include h in
private theorem Inv.notMem_elsewhere {i id : Nat} {result : R} (hw : s.worker i = .ran id result) :
    (located threads s).Perm (id :: elsewhere threads s i) ∧ id ∉ elsewhere threads s i ∧
      (elsewhere threads s i).Nodup := by
  have hi : i < threads := h.thread_lt (by rw [hw]; simp)
  have hperm : (located threads s).Perm (id :: elsewhere threads s i) := by
    refine perm_iff_count.mpr fun a ↦ ?_
    have := (heldBy_perm taskId s.worker hi).count_eq a
    simp only [hw, taskId, Option.toList, count_append, count_cons, count_nil] at this
    simp only [located, elsewhere, count_append, count_cons]
    omega
  exact ⟨hperm, nodup_cons.mp (hperm.nodup_iff.mp h.nodup)⟩

include h in
/-- A worker delivers its result: it goes into the heap, or it is older than one popped. -/
theorem Inv.deliver {i id : Nat} {result : R} (hw : s.worker i = .ran id result) :
    Inv run threads { s with
      worker := update s.worker i .notifying
      results := s.results.push id result } := by
  have hi : i < threads := h.thread_lt (by rw [hw]; simp)
  obtain ⟨hperm, hnot, hnodup⟩ := h.notMem_elsewhere hw
  have hnotResult : id ∉ s.results.results.map (·.1) := fun hin ↦
    hnot (by simp only [elsewhere, mem_append]; exact .inl (.inr hin))
  have hnotPopped : id ∉ s.popped.map (·.1) := fun hin ↦
    hnot (by simp only [elsewhere, mem_append]; exact .inr hin)
  have hidlt : id < s.pushed.length := h.lt id (hperm.mem_iff.mpr mem_cons_self)
  have hrunning : ∀ j id' task, update s.worker i .notifying j = .running id' task →
      s.pushed[id']? = some task :=
    fun j id' task hj ↦ h.running j id' task (eq_of_update_eq hj (by simp))
  have hran : ∀ j id' r, update s.worker i .notifying j = .ran id' r → IsResult run s (id', r) :=
    fun j id' r hj ↦ h.ran j id' r (eq_of_update_eq hj (by simp))
  have hheld := fun a ↦ (heldBy_update_perm taskId s.worker hi .notifying).count_eq a
  simp only [taskId, Option.toList, nil_append] at hheld
  by_cases hle : s.results.nextResultId ≤ id
  · let s' : ResultTaskQueue T R := { s with
      worker := update s.worker i .notifying
      results := { s.results with
        results := insertById (id, result) s.results.results } }
    have hperm' : (located threads s').Perm (located threads s) := by
      refine (perm_iff_count.mpr fun a ↦ ?_ : List.Perm _ _).trans hperm.symm
      have hins := ((insertById_perm (id, result) s.results.results).map (·.1)).count_eq a
      simp only [map_cons, count_cons] at hins
      simp only [s', located, elsewhere, count_append, count_cons, hheld a]
      omega
    obtain ⟨hnodup', hlt, hlast, hall⟩ := h.located_congr (t := s') rfl rfl hperm'
    rw [ResultQueue.push, if_pos hle]
    exact { h with
        workers := h.worker_update hi
        nodup := hnodup'
        lt := hlt
        last := hlast
        all := hall
        running := hrunning
        ran := hran
        result := by
          intro p hp
          rcases mem_cons.mp ((insertById_perm _ _).mem_iff.mp hp) with rfl | hp
          · exact ⟨hle, h.ran i id result hw⟩
          · exact h.result p hp
        sorted := insertById_pairwise h.sorted hnotResult
        blocked := fun _ _ ↦ ⟨i, update_self ..⟩ }
  · -- The result is dropped: it is neither the newest, nor is the order strict.
    let s' : ResultTaskQueue T R := { s with worker := update s.worker i .notifying }
    have hperm' : (located threads s').Perm (elsewhere threads s i) := by
      refine perm_iff_count.mpr fun a ↦ ?_
      simp only [s', located, elsewhere, count_append, hheld a]
    have hne : ∀ n, s.pushed.length = n + 1 → n ≠ id := by
      rintro n hn rfl
      have hnext : s.results.nextResultId = n + 1 := by
        have := h.next_le
        omega
      exact hnotPopped (h.newest n hnext)
    have hstrict : s.results.strictOrdering = false := by
      refine Bool.eq_false_iff.mpr fun hs ↦ hnotPopped ?_
      rw [h.inOrder hs]
      exact mem_range.mpr (by omega)
    have hrest : ∀ {id'}, id' ∈ located threads s → id' ≠ id → id' ∈ located threads s' := by
      intro id' hin hne'
      rcases mem_cons.mp (hperm.mem_iff.mp hin) with heq | hin
      · exact absurd heq hne'
      · exact hperm'.mem_iff.mpr hin
    rw [ResultQueue.push, if_neg hle]
    exact { h with
        workers := h.worker_update hi
        nodup := hperm'.nodup_iff.mpr hnodup
        lt := fun id' hin ↦ h.lt id' (hperm.mem_iff.mpr (mem_cons_of_mem _ (hperm'.mem_iff.mp hin)))
        last := fun n hn ↦ hrest (h.last n hn) (hne n hn)
        all := fun hs ↦ by
          rw [show s.results.strictOrdering = true from hs] at hstrict
          cases hstrict
        running := hrunning
        ran := hran
        blocked := fun _ _ ↦ ⟨i, update_self ..⟩ }

include h in
/-- The client pops the top of the heap, if there is one it may pop. -/
theorem Inv.clientPop (hdone : s.tasks.done = false) : Inv run threads s.clientPop := by
  unfold ResultTaskQueue.clientPop tryPop
  cases hres : s.results.results with
  | nil => exact h.withClient (by simp [hdone]) (by simp) (by simp)
  | cons top rest =>
    by_cases hwait : s.results.strictOrdering = true ∧ top.1 ≠ s.results.nextResultId
    · simp only [if_pos hwait]
      exact h.withClient (by simp [hdone]) (by simp) (by simp)
    · simp only [if_neg hwait]
      obtain ⟨hge, hval⟩ := h.result top (by rw [hres]; exact mem_cons_self)
      have hsorted := pairwise_cons.mp (hres ▸ h.sorted)
      let s' : ResultTaskQueue T R := { s with
        client := .idle
        results := { s.results with results := rest, nextResultId := top.1 + 1 }
        popped := s.popped ++ [top] }
      have hperm : (located threads s').Perm (located threads s) := by
        refine perm_iff_count.mpr fun a ↦ ?_
        simp only [s', located, hres, map_append, map_cons, map_nil,
          count_append, count_cons, count_nil]
        omega
      obtain ⟨hnodup, hlt, hlast, hall⟩ := h.located_congr (t := s') rfl rfl hperm
      have htop : top.1 < s.pushed.length := by
        obtain ⟨task, ht, _⟩ := hval
        exact (List.getElem?_eq_some_iff.mp ht).1
      exact { h with
          done := by simp [hdone]
          nodup := hnodup
          lt := hlt
          last := hlast
          all := hall
          result := fun p hp ↦
            ⟨hsorted.1 p hp, (h.result p (by rw [hres]; exact mem_cons_of_mem _ hp)).2⟩
          sorted := hsorted.2
          popped := by
            intro p hp
            rcases mem_append.mp hp with hp | hp
            · obtain ⟨hlt', hp'⟩ := h.popped p hp
              exact ⟨by dsimp only; omega, hp'⟩
            · rw [mem_singleton.mp hp]
              exact ⟨Nat.lt_succ_self _, hval⟩
          increasing := by
            refine pairwise_append.mpr ⟨h.increasing, pairwise_singleton _ _, ?_⟩
            intro p hp q hq
            have := (h.popped p hp).1
            rw [mem_singleton.mp hq]
            omega
          next_le := htop
          newest := by
            intro n hn
            have : n = top.1 := by
              dsimp only at hn
              omega
            simp [this]
          inOrder := by
            intro hs
            have htop' : top.1 = s.results.nextResultId := by
              by_contra hne
              exact hwait ⟨hs, hne⟩
            rw [map_append, h.inOrder hs, htop', range_succ]
            simp [htop']
          waiting := by simp
          blocked := by simp }

end Workers

/-- The client's state after a notification. -/
theorem wakeClient_eq (s : ResultTaskQueue T R) : s.wakeClient =
    { s with client := if s.client = .blocked then .checking else s.client } := by
  unfold wakeClient
  split
  next h => simp [h]
  next h => simp [show s.client ≠ .blocked from h]

/-- Every step keeps the invariant. -/
theorem Inv.step (h : Inv run threads s) {l : ResultStep T} {t : ResultTaskQueue T R}
    (hs : s.step run threads l = some t) : Inv run threads t := by
  have hlive : ∀ c, s.client = c → c ≠ .destroying → s.tasks.done = false := by
    intro c hc hne
    refine Bool.eq_false_iff.mpr fun hd ↦ hne ?_
    rw [← hc, h.done hd]
  cases l with
  | push task =>
    obtain ⟨hidle, rfl⟩ := ite_some_iff.mp hs
    exact h.push hidle task
  | isEmpty answer =>
    obtain ⟨-, rfl⟩ := ite_some_iff.mp hs
    exact h
  | tryPop =>
    obtain ⟨hidle, rfl⟩ := ite_some_iff.mp hs
    exact h.clientPop (hlive _ hidle (by simp))
  | popEmpty =>
    obtain ⟨-, rfl⟩ := ite_some_iff.mp hs
    exact h
  | popCall =>
    obtain ⟨⟨hidle, hempty⟩, rfl⟩ := ite_some_iff.mp hs
    refine h.withClient (by simp [hlive _ hidle]) (fun _ ↦ ?_) (by simp)
    have hle := h.next_le
    have hne : s.results.nextResultId ≠ s.tasks.nextTaskId := by
      simpa [ResultTaskQueue.isEmpty] using hempty
    rw [h.count] at hne
    omega
  | popCheck =>
    obtain ⟨hc, rfl⟩ := ite_some_iff.mp hs
    refine h.withClient (by simp [hlive _ hc]) (fun _ ↦ h.waiting (.inl hc)) fun hb ↦ ?_
    by_contra hready
    rw [if_pos (by simpa using hready)] at hb
    cases hb
  | wake =>
    obtain ⟨hc, rfl⟩ := ite_some_iff.mp hs
    rw [wakeClient_eq, if_pos hc]
    exact h.withClient (by simp [hlive _ hc]) (fun _ ↦ h.waiting (.inr hc)) (by simp)
  | popReturn =>
    obtain ⟨hc, rfl⟩ := ite_some_iff.mp hs
    exact h.clientPop (hlive _ hc (by simp))
  | destroy =>
    obtain ⟨-, rfl⟩ := ite_some_iff.mp hs
    exact { h with done := by simp, waiting := by simp, blocked := by simp }
  | pop i =>
    simp only [ResultTaskQueue.step] at hs
    split at hs
    next hw =>
      simp only [Option.ite_none_right_eq_some, Option.map_eq_some_iff] at hs
      obtain ⟨hi, ⟨u, q⟩, hpop, rfl⟩ := hs
      simp only [TaskQueue.pop] at hpop
      split at hpop
      · cases hpop
      next u' ts hts =>
        cases hpop
        exact h.take hi hw hts
    · cases hs
  | finish i =>
    simp only [ResultTaskQueue.step] at hs
    split at hs
    next id task hw =>
      cases hs
      exact h.finish hw
    · cases hs
  | deliver i =>
    simp only [ResultTaskQueue.step] at hs
    split at hs
    next id result hw =>
      cases hs
      exact h.deliver hw
    · cases hs
  | notify i =>
    simp only [ResultTaskQueue.step] at hs
    split at hs
    next hw =>
      cases hs
      have hi : i < threads := h.thread_lt (by rw [hw]; simp)
      rw [wakeClient_eq]
      refine h.worker_without_task hi (by rw [hw]; rfl) rfl (fun hd ↦ ?_) (fun hc ↦ ?_)
        fun hc ↦ ?_
      · simp [h.done hd]
      · by_cases hb : s.client = .blocked
        · exact h.waiting (.inr hb)
        · rw [if_neg hb] at hc
          exact h.waiting hc
      · split at hc
        · cases hc
        next hb => exact absurd hc hb
    · cases hs
  | exit i =>
    simp only [ResultTaskQueue.step] at hs
    split at hs
    next hw =>
      obtain ⟨⟨hi, hd, -⟩, rfl⟩ := ite_some_iff.mp hs
      have hc := h.done hd
      exact h.worker_without_task hi (by rw [hw]; rfl) rfl h.done (by simp [hc]) (by simp [hc])
    · cases hs

private theorem clientPop_strictOrdering (s : ResultTaskQueue T R) :
    s.clientPop.results.strictOrdering = s.results.strictOrdering := by
  unfold ResultTaskQueue.clientPop tryPop
  cases s.results.results with
  | nil => rfl
  | cons top rest =>
    by_cases hwait : s.results.strictOrdering = true ∧ top.1 ≠ s.results.nextResultId
    · simp only [if_pos hwait]
    · simp only [if_neg hwait]

private theorem step_strictOrdering {l : ResultStep T} {t : ResultTaskQueue T R}
    (hs : s.step run threads l = some t) :
    t.results.strictOrdering = s.results.strictOrdering := by
  cases l <;> simp only [ResultTaskQueue.step] at hs
  case pop i =>
    split at hs
    · simp only [Option.ite_none_right_eq_some, Option.map_eq_some_iff] at hs
      obtain ⟨-, ⟨u, q⟩, -, rfl⟩ := hs
      rfl
    · cases hs
  case finish i =>
    split at hs <;> cases hs
    rfl
  case deliver i =>
    split at hs <;> cases hs
    simp only [push]
    split <;> rfl
  case notify i =>
    split at hs <;> cases hs
    rw [wakeClient_eq]
  case exit i =>
    split at hs
    · obtain ⟨-, rfl⟩ := ite_some_iff.mp hs
      rfl
    · cases hs
  all_goals
    obtain ⟨-, rfl⟩ := ite_some_iff.mp hs
  case tryPop => exact clientPop_strictOrdering s
  case popReturn => exact clientPop_strictOrdering s
  case wake => rw [wakeClient_eq]
  all_goals rfl

/-- The invariant of every reachable state. -/
theorem inv_of_reachable {strictOrdering : Bool} {bufferSize : Int}
    (h : (system run threads strictOrdering bufferSize).Reachable s) :
    Inv run threads s ∧ s.results.strictOrdering = strictOrdering := by
  refine h.invariant
    (I := fun s ↦ Inv run threads s ∧ s.results.strictOrdering = strictOrdering) ?_ ?_
  · rintro s rfl
    exact ⟨.create strictOrdering bufferSize, rfl⟩
  · rintro s l t ⟨hi, hstrict⟩ hstep
    exact ⟨hi.step hstep, (step_strictOrdering hstep).trans hstrict⟩

/-! ## What the client sees -/

/-- No worker holds a task or owes a notification. -/
def AllIdle (threads : Nat) (s : ResultTaskQueue T R) : Prop := ∀ i < threads, s.worker i = .waiting

/-- With a strict order the pops are the results of the pushes, one after another. -/
theorem Inv.popped_eq (h : Inv run threads s) (hs : s.results.strictOrdering = true) :
    s.popped.map (·.2) = (s.pushed.take s.popped.length).map run := by
  have hids := h.inOrder hs
  have hlen : s.popped.length = s.results.nextResultId := by simpa using congrArg length hids
  refine ext_getElem? fun k ↦ ?_
  rw [getElem?_map, getElem?_map]
  rcases Nat.lt_or_ge k s.popped.length with hk | hk
  · obtain ⟨task, htask, hval⟩ := (h.popped _ (getElem_mem hk)).2
    have hid : (s.popped[k]).1 = k := by
      have hget : (s.popped.map (·.1))[k]? = (range s.results.nextResultId)[k]? := by rw [hids]
      simpa [hk, hlen ▸ hk] using hget
    rw [hid] at htask
    rw [getElem?_eq_getElem hk, getElem?_take_of_lt hk, htask]
    simp [hval]
  · rw [getElem?_eq_none hk, getElem?_eq_none (by simp; omega)]
    rfl

/-- When nothing is queued and no worker is busy, what is neither queued nor held is in the
heap or popped. -/
private theorem Inv.mem_results (h : Inv run threads s) (hidle : AllIdle threads s)
    (hempty : s.tasks.tasks = []) {id : Nat} (hin : id ∈ located threads s)
    (hnew : s.results.nextResultId ≤ id) : id ∈ s.results.results.map (·.1) := by
  rcases mem_located.mp hin with hq | hheld | hres | hpop
  · simp [hempty] at hq
  · obtain ⟨j, hj, hview⟩ := (mem_heldBy ..).mp hheld
    rw [hidle j hj] at hview
    cases hview
  · exact hres
  · obtain ⟨p, hp, rfl⟩ := mem_map.mp hpop
    exact absurd (h.popped p hp).1 (by omega)

/-- A client is not blocked in `pop` when nothing is queued and no worker is busy. -/
theorem Inv.not_blocked (h : Inv run threads s) (hidle : AllIdle threads s)
    (hempty : s.tasks.tasks = []) : s.client ≠ .blocked := by
  intro hc
  have hlt := h.waiting (.inr hc)
  have hlast : s.pushed.length - 1 ∈ s.results.results.map (·.1) :=
    h.mem_results hidle hempty (h.last _ (by omega)) (by omega)
  have hready : s.results.ready = true := by
    unfold ready
    cases hres : s.results.results with
    | nil => simp [hres] at hlast
    | cons top rest =>
      cases hs : s.results.strictOrdering with
      | false => rfl
      | true =>
        have hnext := h.mem_results hidle hempty (h.all hs _ hlt) le_rfl
        have hge := (h.result top (by rw [hres]; exact mem_cons_self)).1
        rw [hres, map_cons, mem_cons] at hnext
        rcases hnext with hnext | hnext
        · simp [hnext]
        · obtain ⟨p, hp, hpn⟩ := mem_map.mp hnext
          have := (pairwise_cons.mp (hres ▸ h.sorted)).1 p hp
          omega
  obtain ⟨i, hi⟩ := h.blocked hc hready
  have hlt' : i < threads := h.thread_lt (by rw [hi]; simp)
  rw [hidle i hlt'] at hi
  cases hi

/-- The queue delivers in order without loss. With a strict order the `k`-th result popped is
that of the `k`-th push, every task pushed is in one place, and the queue is empty exactly
when everything was popped. Without it the results popped are those of increasing pushes, and
the task pushed last is never dropped. A client is never left waiting in `pop` with nothing
queued and all workers idle. -/
theorem results_in_order (run : T → R) (threads : Nat) (strictOrdering : Bool)
    (bufferSize : Int) (s : ResultTaskQueue T R)
    (h : (system run threads strictOrdering bufferSize).Reachable s) :
    (located threads s).Nodup ∧
    (strictOrdering = true → s.popped.map (·.2) = (s.pushed.take s.popped.length).map run ∧
      (∀ id < s.pushed.length, id ∈ located threads s) ∧
      (s.isEmpty = true ↔ s.popped.length = s.pushed.length)) ∧
    s.popped.Pairwise (·.1 < ·.1) ∧ (∀ p ∈ s.popped, IsResult run s p) ∧
    (∀ n, s.pushed.length = n + 1 → n ∈ located threads s) ∧
    ¬(s.client = .blocked ∧ AllIdle threads s ∧ s.tasks.tasks = []) := by
  obtain ⟨hi, hstrict⟩ := inv_of_reachable h
  refine ⟨hi.nodup, fun hs ↦ ?_, hi.increasing, fun p hp ↦ (hi.popped p hp).2, hi.last,
    fun ⟨hc, hidle, hempty⟩ ↦ hi.not_blocked hidle hempty hc⟩
  have hs' := hstrict.trans hs
  refine ⟨hi.popped_eq hs', hi.all hs', ?_⟩
  have hlen : s.popped.length = s.results.nextResultId := by
    simpa using congrArg length (hi.inOrder hs')
  simp [isEmpty, hi.count, hlen]

/-- Two workers finish two tasks out of order, while the client waits for the first. -/
def outOfOrder : List (ResultStep Nat) :=
  [.push 10, .push 20, .pop 0, .pop 1, .finish 1, .deliver 1, .notify 1, .popCall, .popCheck,
    .finish 0, .deliver 0, .notify 0, .popCheck, .popReturn, .tryPop]

/-- Both results are popped, in the order of the pushes. -/
theorem outOfOrder_in_order : ∃ s, (system (· + 1) 2 true (-1)).Reachable s ∧
    s.pushed = [10, 20] ∧ s.popped.length = 2 ∧ s.popped.map (·.2) = [11, 21] := by
  let start : ResultTaskQueue Nat Nat := create true (-1)
  let s := (outOfOrder.foldlM (step (· + 1) 2) start).get rfl
  have hs : (system (· + 1) 2 true (-1)).Reachable s :=
    ⟨start, outOfOrder, rfl, .of_foldlM (fun _ _ _ h ↦ h) (Option.some_get _).symm⟩
  exact ⟨s, hs, rfl, rfl, ((results_in_order (· + 1) 2 true (-1) s hs).2.1 rfl).1⟩

end ResultTaskQueue
end Hisab.Parallel
