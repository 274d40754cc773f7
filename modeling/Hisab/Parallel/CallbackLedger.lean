import Hisab.Base.ThreadTable
import Hisab.Parallel.CallbackQueue

/-!
# Who is responsible for a future

At every moment at most one place of the queue, of a thread or of a list of launches may take
a future further. The ledger lists these places with what they are about to do, and each
step of the queue is one entry of it: an entry goes, others come, and what the future's
status and counter have to be for the new entries follows from what they were for the old.
-/

namespace Hisab.Parallel

open Base List Function Prod SharedFuture

/-- What the place that is responsible for a future does with it. -/
inductive FutureRole
  | queued
  | invoking
  | inBody
  | signalling
  | toLaunch
  | registering (rest : List Nat)
  | adding (rest : List Nat)
  | preparing (futures : List Nat)
deriving Repr, DecidableEq

/-- The futures, how many there are, those whose function was called, and the places that are
responsible for one. -/
structure Ledger where
  future : Nat → SharedFuture
  count : Nat
  entered : List Nat
  roles : List (Nat × FutureRole)

namespace Ledger

/-- How often `d` is registered at a prior that has not counted it down yet. -/
def outstanding (f : Nat → SharedFuture) (c d : Nat) : Nat :=
  (held SharedFuture.dependents c f).count d

/-- Prior `p` of `d` is ready, or has `d` registered. -/
def Settled (f : Nat → SharedFuture) (d p : Nat) : Prop :=
  (f p).status = .ready ∨ d ∈ (f p).dependents

/-- The registration of `d` has the priors `rest` before it. -/
structure Registering (f : Nat → SharedFuture) (d : Nat) (rest : List Nat) : Prop where
  status : (f d).status = .constructing
  rest_subset : rest ⊆ (f d).priors
  settled : ∀ p ∈ (f d).priors, p ∈ rest ∨ Settled f d p

/-- What a future is like when a place has the given role for it. -/
def RoleOk (f : Nat → SharedFuture) (c : Nat) (e : List Nat) (x : Nat) : FutureRole → Prop
  | .queued => (f x).status = .enqueued
  | .invoking => (f x).status = .running ∧ x ∉ e
  | .inBody => (f x).status = .running ∧ x ∈ e
  | .signalling => (f x).status = .ready
  | .toLaunch => (f x).status = .onHold ∧ (f x).remaining = 0
  | .registering rest => Registering f x rest ∧ (f x).remaining = outstanding f c x
  | .adding rest => Registering f x rest ∧ (f x).remaining + 1 = outstanding f c x
  | .preparing futures => (f x).status = .constructing ∧ (f x).priors = futures ∧
    (f x).remaining = 0 ∧ outstanding f c x = 0

/-- Some place is responsible for `x`. -/
def Held (L : Ledger) (x : Nat) : Prop := ∃ role, (x, role) ∈ L.roles

/-- What holds at every moment. -/
structure Ok (L : Ledger) : Prop where
  nodup : (L.roles.map Prod.fst).Nodup
  role : ∀ a ∈ L.roles, a.1 < L.count ∧ RoleOk L.future L.count L.entered a.1 a.2
  enteredNodup : L.entered.Nodup
  entered : ∀ x ∈ L.entered, x < L.count ∧
    ((L.future x).status = .running ∨ (L.future x).status = .ready)
  readyEntered : ∀ x < L.count, (L.future x).status = .ready → x ∈ L.entered
  priors : ∀ x < L.count, ∀ p ∈ (L.future x).priors, p < x
  dependents : ∀ x < L.count, ∀ d ∈ (L.future x).dependents, d < L.count ∧ x ∈ (L.future d).priors ∧
    ((L.future d).status = .constructing ∨ (L.future d).status = .onHold)
  settled : ∀ d < L.count, (L.future d).status ≠ .constructing →
    ∀ p ∈ (L.future d).priors, Settled L.future d p
  onHold : ∀ d < L.count, (L.future d).status = .onHold →
    (L.future d).remaining = outstanding L.future L.count d ∧
      ((L.future d).remaining = 0 → (d, .toLaunch) ∈ L.roles)
  signalling : ∀ x < L.count, (L.future x).status = .ready → (L.future x).dependents ≠ [] →
    (x, .signalling) ∈ L.roles
  registration : ∀ r < L.count, ∀ d, (L.future r).kind = .registration d → r = d + 1 ∧
    (r ∉ L.entered → (L.future d).status = .constructing ∧ (L.future d).remaining = 0 ∧
      outstanding L.future L.count d = 0 ∧ ¬L.Held d)

variable {f : Nat → SharedFuture} {c : Nat} {e : List Nat} {R R' : List (Nat × FutureRole)}
  {L M : Ledger} {x d p : Nat} {role : FutureRole}

/-- A future that is registered somewhere is a dependent of a prior. -/
theorem exists_of_outstanding (h : outstanding f c d ≠ 0) : ∃ x < c, d ∈ (f x).dependents :=
  mem_held.mp (count_pos_iff.mp (Nat.pos_of_ne_zero h))

theorem outstanding_pos (hx : x < c) (hd : d ∈ (f x).dependents) : 0 < outstanding f c d :=
  count_pos_iff.mpr (mem_held.mpr ⟨x, hx, hd⟩)

/-- A future past its registration is registered nowhere. -/
theorem Ok.outstanding_eq_zero (h : L.Ok) (hc : (L.future d).status ≠ .constructing)
    (ho : (L.future d).status ≠ .onHold) : outstanding L.future L.count d = 0 := by
  by_contra hne
  obtain ⟨x, hx, hd⟩ := exists_of_outstanding hne
  rcases (h.dependents x hx d hd).2.2 with hs | hs
  · exact hc hs
  · exact ho hs

/-- A task that is past its registration, or whose priors have all counted it down, has its
priors ready. -/
theorem Ok.ready_of_settled (h : L.Ok) (hd : d < L.count) (hz : outstanding L.future L.count d = 0)
    (hp : p ∈ (L.future d).priors) (hs : Settled L.future d p) : (L.future p).status = .ready := by
  rcases hs with hs | hs
  · exact hs
  · have hpd : p < d := h.priors d hd p hp
    exact absurd (outstanding_pos (hpd.trans hd) hs) (by omega)

/-- Every prior of a task that was called is ready. -/
theorem Ok.priors_ready (h : L.Ok) (hx : x ∈ L.entered) (hp : p ∈ (L.future x).priors) :
    (L.future p).status = .ready := by
  obtain ⟨hlt, hs⟩ := h.entered x hx
  have hc : (L.future x).status ≠ .constructing := by rcases hs with hs | hs <;> simp [hs]
  have ho : (L.future x).status ≠ .onHold := by rcases hs with hs | hs <;> simp [hs]
  exact h.ready_of_settled hlt (h.outstanding_eq_zero hc ho) hp (h.settled x hlt hc p hp)

/-! ## What one entry leaves of the others -/

/-- A place is as right as before when its future is as before, and stays settled. -/
theorem RoleOk.congr {g : Nat → SharedFuture} {e' : List Nat} {c' : Nat}
    (h : RoleOk f c e x role) (hstatus : (g x).status = (f x).status)
    (hpriors : (g x).priors = (f x).priors)
    (hrem : (g x).remaining + outstanding f c x = (f x).remaining + outstanding g c' x)
    (hlaunch : role = .toLaunch → outstanding g c' x = outstanding f c x)
    (hprep : ∀ futures, role = .preparing futures → outstanding g c' x = outstanding f c x)
    (hentered : x ∈ e' ↔ x ∈ e) (hsettled : ∀ p, Settled f x p → Settled g x p) :
    RoleOk g c' e' x role := by
  have hreg : ∀ rest, Registering f x rest → Registering g x rest := fun rest hr ↦
    ⟨hstatus.trans hr.status, hpriors ▸ hr.rest_subset, fun p hp ↦
      (hr.settled p (hpriors ▸ hp)).imp_right (hsettled p)⟩
  cases role with
  | queued | signalling => exact hstatus.trans h
  | invoking | inBody => exact ⟨hstatus.trans h.1, by simpa only [hentered] using h.2⟩
  | toLaunch =>
    have := hlaunch rfl
    have hz := h.2
    exact ⟨hstatus.trans h.1, by omega⟩
  | registering rest | adding rest =>
    have hz := h.2
    exact ⟨hreg rest h.1, by omega⟩
  | preparing futures =>
    have := hprep futures rfl
    obtain ⟨hs, hpr, hz, hout⟩ := h
    exact ⟨hstatus.trans hs, hpriors.trans hpr, by omega, by omega⟩

/-- The order of the places does not matter. -/
theorem Ok.perm (h : Ok ⟨f, c, e, R⟩) (hp : R.Perm R') : Ok ⟨f, c, e, R'⟩ where
  nodup := (hp.map _).nodup_iff.mp h.nodup
  role a ha := h.role a (hp.mem_iff.mpr ha)
  enteredNodup := h.enteredNodup
  entered := h.entered
  readyEntered := h.readyEntered
  priors := h.priors
  dependents := h.dependents
  settled := h.settled
  onHold d hd hs := ⟨(h.onHold d hd hs).1, fun hr ↦ hp.mem_iff.mp ((h.onHold d hd hs).2 hr)⟩
  signalling x hx hs hne := hp.mem_iff.mp (h.signalling x hx hs hne)
  registration r hr d hd := by
    obtain ⟨hrd, hfresh⟩ := h.registration r hr d hd
    refine ⟨hrd, fun hne ↦ ?_⟩
    obtain ⟨hs, hrem, hout, hheld⟩ := hfresh hne
    exact ⟨hs, hrem, hout, fun ⟨role, hmem⟩ ↦ hheld ⟨role, hp.mem_iff.mpr hmem⟩⟩

/-- The place responsible for a future is the only one. -/
theorem Ok.ne_of_mem (h : Ok ⟨f, c, e, (x, role) :: R⟩) {a : Nat × FutureRole} (ha : a ∈ R) :
    a.1 ≠ x := by
  rintro rfl
  have hmem : a.1 ∈ R.map fst := mem_map_of_mem ha
  exact (nodup_cons.mp h.nodup).1 hmem

/-! ## The task of one place -/

/-- Future `x` may become `r`, and its place take the role `new`. -/
structure Fits (L : Ledger) (x : Nat) (r : SharedFuture) (new : Option FutureRole) : Prop where
  dependents : r.dependents = (L.future x).dependents
  priors : r.priors = (L.future x).priors
  kind : r.kind = (L.future x).kind
  notReady : (L.future x).status ≠ .ready
  entered : x ∈ L.entered → r.status = .running ∨ r.status = .ready
  readyEntered : r.status = .ready → x ∈ L.entered
  registered : outstanding L.future L.count x ≠ 0 → r.status = .constructing ∨ r.status = .onHold
  settled : r.status ≠ .constructing → ∀ p ∈ (L.future x).priors, Settled L.future x p
  onHold : r.status = .onHold → r.remaining = outstanding L.future L.count x ∧
    (r.remaining = 0 → new = some .toLaunch)
  signalling : r.status = .ready → r.dependents ≠ [] → new = some .signalling

section Update

variable {r : SharedFuture} {new : Option FutureRole} {futures : List Nat}

theorem Fits.outstanding_eq (hf : Fits ⟨f, c, e, R⟩ x r new) (d : Nat) :
    outstanding (Function.update f x r) c d = outstanding f c d := by
  refine congrArg (List.count d) (held_congr fun j _ ↦ ?_)
  by_cases hj : j = x
  · subst hj
    simpa using hf.dependents
  · simp [update_of_ne hj]

theorem Fits.settled_of (hf : Fits ⟨f, c, e, R⟩ x r new) (hs : Settled f d p) :
    Settled (Function.update f x r) d p := by
  by_cases hp : p = x
  · subst hp
    rcases hs with hs | hs
    · exact absurd hs hf.notReady
    · exact .inr (by simpa [hf.dependents] using hs)
  · simpa [Settled, update_of_ne hp] using hs

/-- A place's step on the task of its own future. -/
theorem Ok.update (h : Ok ⟨f, c, e, (x, role) :: R⟩) (new : Option FutureRole)
    (hf : Fits ⟨f, c, e, (x, role) :: R⟩ x r new)
    (hnew : ∀ role', new = some role' → RoleOk (Function.update f x r) c e x role') :
    Ok ⟨Function.update f x r, c, e, new.toList.map (Prod.mk x) ++ R⟩ := by
  have hx : x < c := (h.role _ mem_cons_self).1
  have hout : ∀ d, outstanding (Function.update f x r) c d = outstanding f c d := hf.outstanding_eq
  have hother : ∀ y, y ≠ x → Function.update f x r y = f y := fun y hy ↦ update_of_ne hy ..
  -- Another future's place is still there, and what it was there for is as before.
  have hmem : ∀ y role', y ≠ x → (y, role') ∈ (x, role) :: R →
      (y, role') ∈ new.toList.map (Prod.mk x) ++ R := by
    intro y role' hy hmem
    rcases mem_cons.mp hmem with heq | hmem
    · exact absurd (congrArg fst heq) hy
    · exact mem_append_right _ hmem
  refine ⟨?_, ?_, h.enteredNodup, ?_, ?_, ?_, ?_, ?_, ?_, ?_, ?_⟩
  · obtain ⟨hfresh, hnodup⟩ := nodup_cons.mp h.nodup
    cases new with
    | none => simpa using hnodup
    | some role' => exact nodup_cons.mpr ⟨hfresh, hnodup⟩
  · intro a ha
    rcases mem_append.mp ha with ha | ha
    · obtain ⟨role', hrole', rfl⟩ := mem_map.mp ha
      exact ⟨hx, hnew role' (Option.mem_toList.mp hrole')⟩
    · have hax : a.1 ≠ x := h.ne_of_mem ha
      obtain ⟨hlt, hok⟩ := h.role a (mem_cons_of_mem _ ha)
      have hfa : Function.update f x r a.1 = f a.1 := hother _ hax
      exact ⟨hlt, hok.congr (congrArg _ hfa) (congrArg _ hfa)
        (by rw [hout]; exact congrArg (· + _) (congrArg remaining hfa))
        (fun _ ↦ hout _) (fun _ _ ↦ hout _) Iff.rfl fun _ ↦ hf.settled_of⟩
  · intro y hy
    obtain ⟨hlt, hs⟩ := h.entered y hy
    refine ⟨hlt, ?_⟩
    by_cases hyx : y = x
    · subst hyx
      simpa using hf.entered hy
    · simpa only [hother y hyx] using hs
  · intro y hy hs
    by_cases hyx : y = x
    · subst hyx
      exact hf.readyEntered (by simpa using hs)
    · exact h.readyEntered y hy (by simpa only [hother y hyx] using hs)
  · intro y hy p hp
    refine h.priors y hy p ?_
    by_cases hyx : y = x
    · subst hyx
      simpa [hf.priors] using hp
    · simpa only [hother y hyx] using hp
  · intro y hy d hd
    have hdy : d ∈ (f y).dependents := by
      by_cases hyx : y = x
      · subst hyx
        simpa [hf.dependents] using hd
      · simpa only [hother y hyx] using hd
    obtain ⟨hlt, hpr, hs⟩ := h.dependents y hy d hdy
    refine ⟨hlt, ?_⟩
    by_cases hdx : d = x
    · subst hdx
      have hpos : outstanding f c d ≠ 0 := Nat.ne_of_gt (outstanding_pos hy hdy)
      simpa [hf.priors] using And.intro hpr (hf.registered hpos)
    · simpa only [hother d hdx] using And.intro hpr hs
  · intro d hd hs p hp
    by_cases hdx : d = x
    · subst hdx
      exact hf.settled_of (hf.settled (by simpa using hs) p (by simpa [hf.priors] using hp))
    · refine hf.settled_of (h.settled d hd ?_ p ?_)
      · simpa only [hother d hdx] using hs
      · simpa only [hother d hdx] using hp
  · intro d hd hs
    rw [hout]
    by_cases hdx : d = x
    · subst hdx
      obtain ⟨hr, hl⟩ := hf.onHold (by simpa using hs)
      refine ⟨by simpa using hr, fun hz ↦ mem_append_left _ ?_⟩
      simp [hl (by simpa using hz)]
    · simp only [hother d hdx] at hs ⊢
      obtain ⟨hr, hl⟩ := h.onHold d hd hs
      exact ⟨hr, fun hz ↦ hmem d _ hdx (hl hz)⟩
  · intro y hy hs hne
    by_cases hyx : y = x
    · subst hyx
      simp [hf.signalling (by simpa using hs) (by simpa using hne)]
    · simp only [hother y hyx] at hs hne
      exact hmem y _ hyx (h.signalling y hy hs hne)
  · intro q hq d hk
    have hkind : (f q).kind = .registration d := by
      by_cases hqx : q = x
      · subst hqx
        simpa [hf.kind] using hk
      · simpa only [hother q hqx] using hk
    obtain ⟨hqd, hfresh⟩ := h.registration q hq d hkind
    refine ⟨hqd, fun hne ↦ ?_⟩
    obtain ⟨hs, hrem, hz, hheld⟩ := hfresh hne
    have hdx : d ≠ x := by
      rintro rfl
      exact hheld ⟨role, mem_cons_self⟩
    rw [hout]
    simp only [hother d hdx]
    refine ⟨hs, hrem, hz, fun ⟨role', hmem'⟩ ↦ hheld ⟨role', mem_cons_of_mem _ ?_⟩⟩
    rcases mem_append.mp hmem' with hmem' | hmem'
    · obtain ⟨_, -, heq⟩ := mem_map.mp hmem'
      exact absurd (congrArg fst heq).symm hdx
    · exact hmem'

/-- A task whose priors are settled, and which is registered nowhere, may be queued or run. -/
theorem Fits.of_settled (hdeps : r.dependents = (f x).dependents)
    (hpriors : r.priors = (f x).priors) (hkind : r.kind = (f x).kind)
    (hready : (f x).status ≠ .ready) (hout : outstanding f c x = 0)
    (hsettled : ∀ p ∈ (f x).priors, Settled f x p)
    (hr : r.status = .running ∨ r.status = .enqueued ∧ x ∉ e) : Fits ⟨f, c, e, R⟩ x r new where
  dependents := hdeps
  priors := hpriors
  kind := hkind
  notReady := hready
  entered he := hr.imp_right fun h ↦ absurd he h.2
  readyEntered hs := by rcases hr with hr | hr <;> simp_all
  registered hne := absurd hout hne
  settled _ := hsettled
  onHold hs := by rcases hr with hr | hr <;> simp_all
  signalling hs := by rcases hr with hr | hr <;> simp_all

/-- A task that is queued was not called. -/
theorem Ok.not_entered (h : L.Ok) (hr : (L.future x).status ≠ .running)
    (hs : (L.future x).status ≠ .ready) : x ∉ L.entered := by
  intro hx
  rcases (h.entered x hx).2 with h | h
  · exact hr h
  · exact hs h

/-- A queued task stays queued while its place in the queue is noted. -/
theorem Ok.reindex (h : Ok ⟨f, c, e, (x, .queued) :: R⟩) (index : Int) :
    Ok ⟨Function.update f x { f x with invokerIndex := index }, c, e, (x, .queued) :: R⟩ := by
  obtain ⟨hx, hs⟩ := h.role _ mem_cons_self
  have hs : (f x).status = .enqueued := hs
  refine h.update (some .queued) (.of_settled rfl rfl rfl (by simp [hs]) ?_ ?_
    (.inr ⟨hs, h.not_entered (by simp [hs]) (by simp [hs])⟩)) ?_
  · exact h.outstanding_eq_zero (by simp [hs]) (by simp [hs])
  · exact h.settled x hx (by simp [hs])
  · simpa [RoleOk] using hs

/-- A queued task is taken. -/
theorem Ok.take (h : Ok ⟨f, c, e, (x, .queued) :: R⟩) :
    Ok ⟨Function.update f x { f x with status := .running }, c, e, (x, .invoking) :: R⟩ := by
  obtain ⟨hx, hs⟩ := h.role _ mem_cons_self
  have hs : (f x).status = .enqueued := hs
  refine h.update (some .invoking) (.of_settled rfl rfl rfl (by simp [hs]) ?_ ?_ (.inl rfl)) ?_
  · exact h.outstanding_eq_zero (by simp [hs]) (by simp [hs])
  · exact h.settled x hx (by simp [hs])
  · rintro _ ⟨⟩
    exact ⟨by simp, h.not_entered (by simp [hs]) (by simp [hs])⟩

/-- A function returns. -/
theorem Ok.return (h : Ok ⟨f, c, e, (x, .inBody) :: R⟩) :
    Ok ⟨Function.update f x { f x with status := .ready }, c, e, (x, .signalling) :: R⟩ := by
  obtain ⟨hx, hs, hin⟩ := h.role _ mem_cons_self
  have hs : (f x).status = .running := hs
  refine h.update (some .signalling) ⟨rfl, rfl, rfl, by simp [hs], fun _ ↦ .inr rfl,
    fun _ ↦ hin, fun hne ↦ absurd ?_ hne, fun _ ↦ h.settled x hx (by simp [hs]), by simp,
    fun _ _ ↦ rfl⟩ ?_
  · exact h.outstanding_eq_zero (by simp [hs]) (by simp [hs])
  · simp [RoleOk]

/-- What launching a task that waited for its last prior takes. -/
private theorem Ok.toLaunch (h : Ok ⟨f, c, e, (x, .toLaunch) :: R⟩) :
    (f x).status = .onHold ∧ outstanding f c x = 0 ∧ x ∉ e ∧ ∀ p ∈ (f x).priors, Settled f x p := by
  obtain ⟨hx, hs, hz⟩ := h.role _ mem_cons_self
  have hs : (f x).status = .onHold := hs
  have hrem := (h.onHold x hx hs).1
  simp only at hrem hz
  exact ⟨hs, by omega, h.not_entered (by simp [hs]) (by simp [hs]), h.settled x hx (by simp [hs])⟩

/-- A task that waited for its last prior is queued. -/
theorem Ok.enqueue (h : Ok ⟨f, c, e, (x, .toLaunch) :: R⟩) (index : Int) :
    Ok ⟨Function.update f x { f x with invokerIndex := index, status := .enqueued }, c, e,
      (x, .queued) :: R⟩ := by
  obtain ⟨hs, hout, hfresh, hset⟩ := h.toLaunch
  refine h.update (some .queued) (.of_settled rfl rfl rfl (by simp [hs]) hout hset
    (.inr ⟨rfl, hfresh⟩)) ?_
  simp [RoleOk]

/-- A task of high priority that waited for its last prior is taken at once. -/
theorem Ok.takeLaunch (h : Ok ⟨f, c, e, (x, .toLaunch) :: R⟩) :
    Ok ⟨Function.update f x { f x with status := .running }, c, e, (x, .invoking) :: R⟩ := by
  obtain ⟨hs, hout, hfresh, hset⟩ := h.toLaunch
  refine h.update (some .invoking) (.of_settled rfl rfl rfl (by simp [hs]) hout hset (.inl rfl)) ?_
  rintro _ ⟨⟩
  exact ⟨by simp, hfresh⟩

/-- A task under construction stays so. -/
private theorem Fits.of_constructing (hdeps : r.dependents = (f x).dependents)
    (hpriors : r.priors = (f x).priors) (hkind : r.kind = (f x).kind)
    (hs : (f x).status = .constructing) (hr : r.status = .constructing) (hfresh : x ∉ e) :
    Fits ⟨f, c, e, R⟩ x r new where
  dependents := hdeps
  priors := hpriors
  kind := hkind
  notReady := by simp [hs]
  entered he := absurd he hfresh
  readyEntered hs := by simp [hr] at hs
  registered _ := .inl hr
  settled hne := absurd hr hne
  onHold hs := by simp [hr] at hs
  signalling hs := by simp [hr] at hs

private theorem Ok.constructing_not_entered (h : L.Ok) (hs : (L.future x).status = .constructing) :
    x ∉ L.entered := h.not_entered (by simp [hs]) (by simp [hs])

/-- `handle_dependent_invoker` passes a prior that is ready. -/
theorem Ok.skip {rest : List Nat} (h : Ok ⟨f, c, e, (d, .registering (p :: rest)) :: R⟩)
    (hp : (f p).status = .ready) : Ok ⟨f, c, e, (d, .registering rest) :: R⟩ := by
  obtain ⟨-, hreg, hrem⟩ := h.role _ mem_cons_self
  have hok := h.update (some (.registering rest)) (.of_constructing rfl rfl rfl
    hreg.status hreg.status (h.constructing_not_entered hreg.status)) ?_
  · rwa [update_eq_self] at hok
  · rintro _ ⟨⟩
    rw [update_eq_self]
    refine ⟨⟨hreg.status, (cons_subset.mp hreg.rest_subset).2, fun q hq ↦ ?_⟩, hrem⟩
    rcases hreg.settled q hq with hin | hs
    · rcases mem_cons.mp hin with rfl | hin
      · exact .inr (.inl hp)
      · exact .inl hin
    · exact .inr hs

/-- `handle_dependent_invoker` counts a registration. -/
theorem Ok.addOne {rest : List Nat} (h : Ok ⟨f, c, e, (d, .adding rest) :: R⟩) :
    Ok ⟨Function.update f d { f d with remaining := (f d).remaining + 1 }, c, e,
      (d, .registering rest) :: R⟩ := by
  obtain ⟨-, hreg, hrem⟩ := h.role _ mem_cons_self
  have hf : Fits ⟨f, c, e, (d, .adding rest) :: R⟩ d
      { f d with remaining := (f d).remaining + 1 } (some (.registering rest)) :=
    .of_constructing rfl rfl rfl hreg.status hreg.status (h.constructing_not_entered hreg.status)
  refine h.update _ hf ?_
  rintro _ ⟨⟩
  refine ⟨⟨by simpa using hreg.status, by simpa using hreg.rest_subset, fun q hq ↦ ?_⟩, ?_⟩
  · exact (hreg.settled q (by simpa using hq)).imp_right hf.settled_of
  · rw [hf.outstanding_eq, update_self]
    exact hrem

/-- `handle_dependent_invoker` runs a task that waits for nothing. -/
theorem Ok.runRegistered (h : Ok ⟨f, c, e, (d, .registering []) :: R⟩) (hz : (f d).remaining = 0) :
    Ok ⟨Function.update f d { f d with status := .running }, c, e, (d, .invoking) :: R⟩ := by
  obtain ⟨-, hreg, hrem⟩ := h.role _ mem_cons_self
  have hs : (f d).status = .constructing := hreg.status
  refine h.update (some .invoking) (.of_settled rfl rfl rfl (by simp [hs]) ?_
    (fun p hp ↦ (hreg.settled p hp).resolve_left not_mem_nil) (.inl rfl)) ?_
  · simp only at hrem
    omega
  · rintro _ ⟨⟩
    exact ⟨by simp, h.constructing_not_entered hs⟩

/-- `handle_dependent_invoker` leaves a task that waits for a prior. -/
theorem Ok.hold (h : Ok ⟨f, c, e, (d, .registering []) :: R⟩) (hz : (f d).remaining ≠ 0) :
    Ok ⟨Function.update f d { f d with status := .onHold }, c, e, R⟩ := by
  obtain ⟨-, hreg, hrem⟩ := h.role _ mem_cons_self
  have hs : (f d).status = .constructing := hreg.status
  refine h.update none ⟨rfl, rfl, rfl, by simp [hs],
    fun he ↦ absurd he (h.constructing_not_entered hs), by simp, fun _ ↦ .inr rfl,
    fun _ p hp ↦ (hreg.settled p hp).resolve_left not_mem_nil,
    fun _ ↦ ⟨hrem, fun hr ↦ absurd hr hz⟩, by simp⟩ ?_
  rintro _ ⟨⟩

/-- A control task that waits for nothing goes to the queue. -/
theorem Ok.prepared (h : Ok ⟨f, c, e, (x, .preparing futures) :: R⟩)
    (hready : ∀ p ∈ futures, (f p).status = .ready) :
    Ok ⟨Function.update f x { f x with status := .enqueued }, c, e, (x, .queued) :: R⟩ := by
  obtain ⟨-, hs, hp, -, hout⟩ := h.role _ mem_cons_self
  have hs : (f x).status = .constructing := hs
  refine h.update (some .queued) (.of_settled rfl rfl rfl (by simp [hs]) hout
    (fun p hin ↦ .inl (hready p (hp ▸ hin))) (.inr ⟨rfl, h.constructing_not_entered hs⟩)) ?_
  simp [RoleOk]

/-- A control task that waits for nothing is called at once when there are no threads. -/
theorem Ok.runPrepared (h : Ok ⟨f, c, e, (x, .preparing futures) :: R⟩)
    (hready : ∀ p ∈ futures, (f p).status = .ready) :
    Ok ⟨Function.update f x { f x with status := .running }, c, e, (x, .invoking) :: R⟩ := by
  obtain ⟨-, hs, hp, -, hout⟩ := h.role _ mem_cons_self
  have hs : (f x).status = .constructing := hs
  refine h.update (some .invoking) (.of_settled rfl rfl rfl (by simp [hs]) hout
    (fun p hin ↦ .inl (hready p (hp ▸ hin))) (.inl rfl)) ?_
  rintro _ ⟨⟩
  exact ⟨by simp, h.constructing_not_entered hs⟩

/-- A control task that waits for another is registered, with high priority. -/
theorem Ok.prioritize (h : Ok ⟨f, c, e, (x, .preparing futures) :: R⟩) :
    Ok ⟨Function.update f x { f x with isHighPriority := true }, c, e,
      (x, .registering futures) :: R⟩ := by
  obtain ⟨-, hs, hp, hz, hout⟩ := h.role _ mem_cons_self
  have hf : Fits ⟨f, c, e, (x, .preparing futures) :: R⟩ x
      { f x with isHighPriority := true } (some (.registering futures)) :=
    .of_constructing rfl rfl rfl hs hs (h.constructing_not_entered hs)
  refine h.update _ hf ?_
  rintro _ ⟨⟩
  refine ⟨⟨by simpa using hs, ?_, fun q hq ↦ .inl ?_⟩, ?_⟩
  · simpa using (hp ▸ List.Subset.refl futures : futures ⊆ (f x).priors)
  · exact hp ▸ (show q ∈ (f x).priors by simpa using hq)
  · rw [hf.outstanding_eq, update_self]
    simp only at hz hout ⊢
    omega

end Update

/-! ## Dependents -/

section Dependents

variable {g : Nat → SharedFuture} {ds : List Nat}

/-- Two futures may change: a field that both keep is as before everywhere. -/
theorem field_eq {β : Type} (field : SharedFuture → β) {a b : Nat}
    (hg : ∀ y, y ≠ a → y ≠ b → g y = f y) (ha : field (g a) = field (f a))
    (hb : field (g b) = field (f b)) (y : Nat) : field (g y) = field (f y) := by
  by_cases hya : y = a
  · rw [hya, ha]
  · by_cases hyb : y = b
    · rw [hyb, hb]
    · rw [hg y hya hyb]

/-- A future that takes the dependents `ds` instead of its own changes what is registered by
the difference. -/
theorem outstanding_of_dependents (hx : x < c) (hgx : (g x).dependents = ds)
    (hg : ∀ y, y ≠ x → (g y).dependents = (f y).dependents) (d : Nat) :
    outstanding g c d + (f x).dependents.count d = outstanding f c d + ds.count d := by
  have hheld : held dependents c g =
      held dependents c (update f x { f x with dependents := ds }) := by
    refine held_congr fun j _ ↦ ?_
    by_cases hj : j = x
    · subst hj
      simpa using hgx
    · rw [update_of_ne hj, hg j hj]
  simp only [outstanding, hheld]
  exact count_held_update hx _ d

/-- `signal_dependent_shared_futures` counts a dependent down, and takes responsibility for it
when it was the last prior. -/
theorem Ok.countDown (h : Ok ⟨f, c, e, R⟩) (hx : x < c) (hready : (f x).status = .ready)
    (hdeps : (f x).dependents = d :: ds) (hgx : g x = { f x with dependents := ds })
    (hgd : g d = { f d with remaining := (f d).remaining - 1 })
    (hg : ∀ y, y ≠ x → y ≠ d → g y = f y) :
    Ok ⟨g, c, e, (if (g d).status = .onHold ∧ (g d).remaining = 0 then [(d, .toLaunch)] else [])
      ++ R⟩ := by
  obtain ⟨hd, hxd, hds⟩ := h.dependents x hx d (by simp [hdeps])
  -- Statuses, priors and kinds are as before, and the counter and the dependents elsewhere.
  have hstatus : ∀ y, (g y).status = (f y).status := field_eq status hg (by rw [hgx]) (by rw [hgd])
  have hpriors : ∀ y, (g y).priors = (f y).priors :=
    field_eq SharedFuture.priors hg (by rw [hgx]) (by rw [hgd])
  have hkind : ∀ y, (g y).kind = (f y).kind := field_eq kind hg (by rw [hgx]) (by rw [hgd])
  have hrem : ∀ y, y ≠ d → (g y).remaining = (f y).remaining := by
    intro y hyd
    by_cases hyx : y = x
    · rw [hyx, hgx]
    · rw [hg y hyx hyd]
  have hdep : ∀ y, y ≠ x → (g y).dependents = (f y).dependents := by
    intro y hyx
    by_cases hyd : y = d
    · rw [hyd, hgd]
    · rw [hg y hyx hyd]
  have hgxd : (g x).dependents = ds := by rw [hgx]
  have hremd : (g d).remaining = (f d).remaining - 1 := by rw [hgd]
  have hout : ∀ y, y ≠ d → outstanding g c y = outstanding f c y := by
    intro y hyd
    have := outstanding_of_dependents hx hgxd hdep y
    rw [hdeps, count_cons_of_ne (Ne.symm hyd)] at this
    omega
  have houtd : outstanding g c d + 1 = outstanding f c d := by
    have := outstanding_of_dependents hx hgxd hdep d
    rw [hdeps, count_cons_self] at this
    omega
  have hsettled : ∀ y p, Settled f y p → Settled g y p := by
    intro y p hs
    by_cases hpx : p = x
    · exact .inl (by rw [hstatus, hpx, hready])
    · rcases hs with hs | hs
      · exact .inl ((hstatus p).trans hs)
      · exact .inr (by rw [hdep p hpx]; exact hs)
  have hsub : ∀ y, (g y).dependents ⊆ (f y).dependents := by
    intro y
    by_cases hyx : y = x
    · rw [hyx, hgxd, hdeps]
      exact subset_cons_self d ds
    · rw [hdep y hyx]
      exact List.Subset.refl _
  -- A dependent that is counted down to nothing has no place responsible for it yet.
  have hfree : (f d).status = .onHold → ∀ role, (d, role) ∈ R → (f d).remaining = 0 := by
    intro hold role hmem
    have hok := (h.role _ hmem).2
    cases role with
    | toLaunch => exact hok.2
    | registering rest | adding rest => exact absurd (hok.1.status.symm.trans hold) (by simp)
    | queued | signalling => exact absurd (hok.symm.trans hold) (by simp)
    | invoking | inBody | preparing _ => exact absurd (hok.1.symm.trans hold) (by simp)
  have hpos : 0 < outstanding f c d := outstanding_pos hx (by simp [hdeps])
  have hmono : ∀ a ∈ R, a ∈ (if (g d).status = .onHold ∧ (g d).remaining = 0 then
      [(d, FutureRole.toLaunch)] else []) ++ R := fun a ha ↦ mem_append_right _ ha
  refine ⟨?_, ?_, h.enteredNodup, ?_, ?_, ?_, ?_, ?_, ?_, ?_, ?_⟩
  · split
    next hlast =>
      refine nodup_cons.mpr ⟨fun hmem ↦ ?_, h.nodup⟩
      obtain ⟨⟨y, role⟩, hin, hyd⟩ := mem_map.mp hmem
      obtain rfl : y = d := hyd
      rw [hstatus] at hlast
      have hz := hfree hlast.1 role hin
      omega
    · exact h.nodup
  · intro a ha
    rcases mem_append.mp ha with ha | ha
    · split at ha
      next hlast =>
        rw [mem_singleton.mp ha]
        exact ⟨hd, hlast⟩
      · cases ha
    · obtain ⟨hlt, hok⟩ := h.role a ha
      refine ⟨hlt, hok.congr (hstatus _) (hpriors _) ?_ (fun hl ↦ ?_) (fun futures hp ↦ ?_) Iff.rfl
        fun p ↦ hsettled _ p⟩
      · by_cases had : a.1 = d
        · simp only [had]
          omega
        · simp only [hout _ had, hrem _ had]
      · refine hout _ fun had ↦ ?_
        rw [hl] at hok
        have hold := (h.onHold d hd (had ▸ hok.1)).1
        have hz : (f d).remaining = 0 := had ▸ hok.2
        simp only at hold hz hpos
        omega
      · refine hout _ fun had ↦ ?_
        rw [hp] at hok
        have hz : outstanding f c d = 0 := had ▸ hok.2.2.2
        omega
  · intro y hy
    simpa only [hstatus] using h.entered y hy
  · intro y hy hs
    exact h.readyEntered y hy (by simpa only [hstatus] using hs)
  · intro y hy p hp
    exact h.priors y hy p (by simpa only [hpriors] using hp)
  · intro y hy z hz
    simpa only [hstatus, hpriors] using h.dependents y hy z (hsub y hz)
  · intro y hy hs p hp
    simp only [hstatus, hpriors] at hs hp
    exact hsettled y p (h.settled y hy hs p hp)
  · intro y hy hs
    simp only [hstatus] at hs
    obtain ⟨hr, hl⟩ := h.onHold y hy hs
    by_cases hyd : y = d
    · subst hyd
      refine ⟨?_, fun hz ↦ ?_⟩
      · simp only at hr ⊢
        omega
      · rw [if_pos ⟨(hstatus y).trans hs, hz⟩]
        exact mem_cons_self
    · simp only [hout y hyd, hrem y hyd]
      exact ⟨hr, fun hz ↦ hmono _ (hl hz)⟩
  · intro y hy hs hne
    simp only [hstatus] at hs
    refine hmono _ (h.signalling y hy hs fun hnil ↦ hne ?_)
    exact subset_nil.mp (hnil ▸ hsub y)
  · intro r hr z hk
    simp only [hkind] at hk
    obtain ⟨hrz, hfresh⟩ := h.registration r hr z hk
    refine ⟨hrz, fun hnr ↦ ?_⟩
    obtain ⟨hs, hz, ho, hheld⟩ := hfresh hnr
    have hzd : z ≠ d := by
      rintro rfl
      exact absurd ho (Nat.ne_of_gt hpos)
    simp only [hout z hzd, hstatus, hrem z hzd]
    refine ⟨hs, hz, ho, fun ⟨role, hmem⟩ ↦ hheld ⟨role, ?_⟩⟩
    rcases mem_append.mp hmem with hmem | hmem
    · split at hmem
      · exact absurd (congrArg fst (mem_singleton.mp hmem)) hzd
      · cases hmem
    · exact hmem

/-- `handle_dependent_invoker` adds the dependent to a prior that is not ready. -/
theorem Ok.registerAt {rest : List Nat} (h : Ok ⟨f, c, e, (d, .registering (p :: rest)) :: R⟩)
    (hp : (f p).status ≠ .ready) :
    Ok ⟨Function.update f p { f p with dependents := (f p).dependents ++ [d] }, c, e,
      (d, .adding rest) :: R⟩ := by
  obtain ⟨hdc, hreg, hremd⟩ := h.role _ mem_cons_self
  have hpd : p ∈ (f d).priors := hreg.rest_subset mem_cons_self
  have hpc : p < c := (h.priors d hdc p hpd).trans hdc
  generalize hg : Function.update f p { f p with dependents := (f p).dependents ++ [d] } = g
  have hgp : g p = { f p with dependents := (f p).dependents ++ [d] } := by rw [← hg, update_self]
  have hother : ∀ y, y ≠ p → g y = f y := fun y hy ↦ by rw [← hg, update_of_ne hy]
  have hp' : ∀ y, y ≠ p → y ≠ p → g y = f y := fun y hy _ ↦ hother y hy
  have hstatus : ∀ y, (g y).status = (f y).status := field_eq status hp' (by rw [hgp]) (by rw [hgp])
  have hpriors : ∀ y, (g y).priors = (f y).priors :=
    field_eq SharedFuture.priors hp' (by rw [hgp]) (by rw [hgp])
  have hkind : ∀ y, (g y).kind = (f y).kind := field_eq kind hp' (by rw [hgp]) (by rw [hgp])
  have hrem : ∀ y, (g y).remaining = (f y).remaining :=
    field_eq remaining hp' (by rw [hgp]) (by rw [hgp])
  have hdeps : ∀ y, y ≠ p → (g y).dependents = (f y).dependents := fun y hy ↦ by rw [hother y hy]
  have hgpd : (g p).dependents = (f p).dependents ++ [d] := by rw [hgp]
  have hsub : ∀ y, (f y).dependents ⊆ (g y).dependents := by
    intro y
    by_cases hy : y = p
    · rw [hy, hgpd]
      exact subset_append_left _ _
    · rw [hdeps y hy]
      exact List.Subset.refl _
  have hsettled : ∀ y q, Settled f y q → Settled g y q := fun y q hs ↦
    hs.imp (fun hs ↦ (hstatus q).trans hs) fun hs ↦ hsub q hs
  have hout : ∀ y, y ≠ d → outstanding g c y = outstanding f c y := by
    intro y hy
    have := outstanding_of_dependents hpc hgpd hdeps y
    rw [count_append, count_singleton, if_neg (by simpa using Ne.symm hy)] at this
    omega
  have houtd : outstanding g c d = outstanding f c d + 1 := by
    have := outstanding_of_dependents hpc hgpd hdeps d
    rw [count_append, count_singleton_self] at this
    omega
  have hmem : ∀ y role', y ≠ d → (y, role') ∈ (d, FutureRole.registering (p :: rest)) :: R →
      (y, role') ∈ (d, FutureRole.adding rest) :: R := by
    intro y role' hy hin
    rcases mem_cons.mp hin with heq | hin
    · exact absurd (congrArg fst heq) hy
    · exact mem_cons_of_mem _ hin
  refine ⟨h.nodup, ?_, h.enteredNodup, ?_, ?_, ?_, ?_, ?_, ?_, ?_, ?_⟩
  · intro a ha
    rcases mem_cons.mp ha with rfl | ha
    · have hset : ∀ q ∈ (g d).priors, q ∈ rest ∨ Settled g d q := by
        intro q hq
        rw [hpriors] at hq
        rcases hreg.settled q hq with hin | hs
        · rcases mem_cons.mp hin with rfl | hin
          · exact .inr (.inr (by rw [hgpd]; simp))
          · exact .inl hin
        · exact .inr (hsettled d q hs)
      have hreg' : Registering g d rest :=
        ⟨(hstatus d).trans hreg.status, by rw [hpriors]; exact (cons_subset.mp
          hreg.rest_subset).2, hset⟩
      refine ⟨hdc, hreg', ?_⟩
      simp only [hrem] at hremd ⊢
      omega
    · have had : a.1 ≠ d := h.ne_of_mem ha
      obtain ⟨hlt, hok⟩ := h.role a (mem_cons_of_mem _ ha)
      exact ⟨hlt, hok.congr (hstatus _) (hpriors _) (by simp only [hrem, hout _ had])
        (fun _ ↦ hout _ had) (fun _ _ ↦ hout _ had) Iff.rfl fun q ↦ hsettled _ q⟩
  · intro y hy
    simpa only [hstatus] using h.entered y hy
  · intro y hy hs
    exact h.readyEntered y hy (by simpa only [hstatus] using hs)
  · intro y hy q hq
    exact h.priors y hy q (by simpa only [hpriors] using hq)
  · intro y hy z hz
    simp only [hstatus, hpriors]
    by_cases hyp : y = p
    · subst hyp
      simp only [hgpd, mem_append, mem_singleton] at hz
      rcases hz with hz | rfl
      · exact h.dependents y hy z hz
      · exact ⟨hdc, hpd, .inl hreg.status⟩
    · exact h.dependents y hy z (hdeps y hyp ▸ hz)
  · intro y hy hs q hq
    simp only [hstatus, hpriors] at hs hq
    exact hsettled y q (h.settled y hy hs q hq)
  · intro y hy hs
    simp only [hstatus] at hs
    obtain ⟨hr, hl⟩ := h.onHold y hy hs
    have hyd : y ≠ d := by
      rintro rfl
      exact absurd (hreg.status.symm.trans hs) (by simp)
    simp only [hrem, hout y hyd]
    exact ⟨hr, fun hz ↦ hmem y _ hyd (hl hz)⟩
  · intro y hy hs hne
    simp only [hstatus] at hs
    have hyp : y ≠ p := by
      rintro rfl
      exact hp hs
    have hyd : y ≠ d := by
      rintro rfl
      exact absurd (hreg.status.symm.trans hs) (by simp)
    exact hmem y _ hyd (h.signalling y hy hs (by simpa only [hdeps y hyp] using hne))
  · intro r hr z hk
    simp only [hkind] at hk
    obtain ⟨hrz, hfresh⟩ := h.registration r hr z hk
    refine ⟨hrz, fun hnr ↦ ?_⟩
    obtain ⟨hs, hz, ho, hheld⟩ := hfresh hnr
    have hzd : z ≠ d := by
      rintro rfl
      exact hheld ⟨_, mem_cons_self⟩
    simp only [hstatus, hrem, hout z hzd]
    refine ⟨hs, hz, ho, fun ⟨role', hin⟩ ↦ hheld ⟨role', mem_cons_of_mem _ ?_⟩⟩
    rcases mem_cons.mp hin with heq | hin
    · exact absurd (congrArg fst heq) hzd
    · exact hin

end Dependents

/-! ## Calls, returns and new futures -/

/-- The registration that a task begins with. -/
def registrationRoles (f : Nat → SharedFuture) (x : Nat) : List (Nat × FutureRole) :=
  match (f x).kind with
  | .registration d => [(d, .registering (f d).priors)]
  | _ => []

theorem mem_registrationRoles {a : Nat × FutureRole} (h : a ∈ registrationRoles f x) :
    (f x).kind = .registration a.1 ∧ a.2 = .registering (f a.1).priors := by
  unfold registrationRoles at h
  split at h
  next d hd =>
    rw [mem_singleton.mp h]
    exact ⟨hd, rfl⟩
  · cases h

/-- A function is called. -/
theorem Ok.enter (h : Ok ⟨f, c, e, (x, .invoking) :: R⟩) :
    Ok ⟨f, c, e ++ [x], registrationRoles f x ++ (x, .inBody) :: R⟩ := by
  obtain ⟨hx, hrun, hfresh⟩ := h.role _ mem_cons_self
  have hentered : ∀ y, y ≠ x → (y ∈ e ++ [x] ↔ y ∈ e) := fun y hy ↦ by simp [hy]
  -- The future that the task registers has no place yet.
  have hreg : ∀ a ∈ registrationRoles f x, x = a.1 + 1 ∧ (f a.1).status = .constructing ∧
      (f a.1).remaining = 0 ∧ outstanding f c a.1 = 0 ∧
      ¬Held ⟨f, c, e, (x, .invoking) :: R⟩ a.1 := by
    intro a ha
    obtain ⟨hxa, hrest⟩ := h.registration x hx a.1 (mem_registrationRoles ha).1
    exact ⟨hxa, hrest hfresh⟩
  have hmem : ∀ y role', role' ≠ .invoking → (y, role') ∈ (x, FutureRole.invoking) :: R →
      (y, role') ∈ registrationRoles f x ++ (x, .inBody) :: R := by
    intro y role' hne hin
    rcases mem_cons.mp hin with heq | hin
    · exact absurd (congrArg snd heq) hne
    · exact mem_append_right _ (mem_cons_of_mem _ hin)
  refine ⟨?_, ?_, ?_, ?_, ?_, h.priors, h.dependents, h.settled, ?_, ?_, ?_⟩
  · rw [map_append]
    refine nodup_append.mpr ⟨?_, h.nodup, ?_⟩
    · unfold registrationRoles
      split <;> simp
    · rintro y hy z hz rfl
      obtain ⟨a, ha, rfl⟩ := mem_map.mp hy
      obtain ⟨b, hb, hab⟩ := mem_map.mp (show a.1 ∈ ((x, FutureRole.invoking) :: R).map fst from hz)
      exact (hreg a ha).2.2.2.2 ⟨b.2, hab ▸ hb⟩
  · intro a ha
    rcases mem_append.mp ha with ha | ha
    · obtain ⟨hxa, hs, hz, ho, -⟩ := hreg a ha
      rw [(mem_registrationRoles ha).2]
      have hac : a.1 < c := by
        have hxc : x < c := hx
        omega
      exact ⟨hac, ⟨hs, List.Subset.refl _, fun q hq ↦ .inl hq⟩, by simp only; omega⟩
    · rcases mem_cons.mp ha with rfl | ha
      · exact ⟨hx, hrun, by simp⟩
      · have hax : a.1 ≠ x := h.ne_of_mem ha
        obtain ⟨hlt, hok⟩ := h.role a (mem_cons_of_mem _ ha)
        exact ⟨hlt, hok.congr rfl rfl rfl (fun _ ↦ rfl) (fun _ _ ↦ rfl) (hentered _ hax)
          fun _ hs ↦ hs⟩
  · refine nodup_append.mpr ⟨h.enteredNodup, pairwise_singleton _ _, ?_⟩
    rintro y hy z hz rfl
    exact hfresh (mem_singleton.mp hz ▸ hy)
  · intro y hy
    rcases mem_append.mp hy with hy | hy
    · exact h.entered y hy
    · rw [mem_singleton.mp hy]
      exact ⟨hx, .inl hrun⟩
  · exact fun y hy hs ↦ mem_append_left _ (h.readyEntered y hy hs)
  · intro y hy hs
    obtain ⟨hr, hl⟩ := h.onHold y hy hs
    exact ⟨hr, fun hz ↦ hmem y _ (by simp) (hl hz)⟩
  · exact fun y hy hs hne ↦ hmem y _ (by simp) (h.signalling y hy hs hne)
  · intro r hr d hk
    obtain ⟨hrd, hnew⟩ := h.registration r hr d hk
    refine ⟨hrd, fun hne ↦ ?_⟩
    have hrx : r ≠ x := fun hrx ↦ hne (by simp [hrx])
    obtain ⟨hs, hz, ho, hheld⟩ := hnew fun hin ↦ hne (mem_append_left _ hin)
    refine ⟨hs, hz, ho, fun ⟨role', hin⟩ ↦ ?_⟩
    rcases mem_append.mp hin with hin | hin
    · obtain ⟨hxd, -⟩ := hreg _ hin
      exact hrx (hrd.trans hxd.symm)
    · rcases mem_cons.mp hin with heq | hin
      · obtain rfl : d = x := congrArg fst heq
        exact hheld ⟨.invoking, mem_cons_self⟩
      · exact hheld ⟨role', mem_cons_of_mem _ hin⟩

/-- A future that is ready, and whose dependents have been counted down, needs no place. -/
theorem Ok.release (h : Ok ⟨f, c, e, (x, .signalling) :: R⟩) (hx : (f x).dependents = []) :
    Ok ⟨f, c, e, R⟩ where
  nodup := (nodup_cons.mp h.nodup).2
  role a ha := h.role a (mem_cons_of_mem _ ha)
  enteredNodup := h.enteredNodup
  entered := h.entered
  readyEntered := h.readyEntered
  priors := h.priors
  dependents := h.dependents
  settled := h.settled
  onHold d hd hs := by
    obtain ⟨hr, hl⟩ := h.onHold d hd hs
    exact ⟨hr, fun hz ↦ (mem_cons.mp (hl hz)).resolve_left (by simp)⟩
  signalling y hy hs hne := by
    refine (mem_cons.mp (h.signalling y hy hs hne)).resolve_left fun heq ↦ hne ?_
    obtain rfl : y = x := congrArg fst heq
    exact hx
  registration r hr d hk := by
    obtain ⟨hrd, hfresh⟩ := h.registration r hr d hk
    refine ⟨hrd, fun hne ↦ ?_⟩
    obtain ⟨hs, hz, ho, hheld⟩ := hfresh hne
    exact ⟨hs, hz, ho, fun ⟨role', hin⟩ ↦ hheld ⟨role', mem_cons_of_mem _ hin⟩⟩

/-- What a new future is like, and the role of the place that made it. -/
structure Fresh (L : Ledger) (r : SharedFuture) (new : Option FutureRole) : Prop where
  dependents : r.dependents = []
  remaining : r.remaining = 0
  priors : ∀ p ∈ r.priors, p < L.count
  status : r.status = .constructing ∨
    r.status = .enqueued ∧ ∀ p ∈ r.priors, (L.future p).status = .ready
  registration : ∀ d, r.kind = .registration d → L.count = d + 1 ∧
    (L.future d).status = .constructing ∧ (L.future d).remaining = 0 ∧
    outstanding L.future L.count d = 0 ∧ ¬L.Held d
  role : ∀ role, new = some role → role = .queued ∧ r.status = .enqueued ∨
    r.status = .constructing ∧ (role = .preparing r.priors ∨ role = .registering r.priors)

theorem Ok.create (h : Ok ⟨f, c, e, R⟩) (new : Option FutureRole) {r : SharedFuture}
    (hr : Fresh ⟨f, c, e, R⟩ r new) :
    Ok ⟨Function.update f c r, c + 1, e, new.toList.map (Prod.mk c) ++ R⟩ := by
  generalize hg : Function.update f c r = g
  have hgc : g c = r := by rw [← hg, update_self]
  have hother : ∀ y < c, g y = f y := fun y hy ↦ by rw [← hg, update_of_ne (Nat.ne_of_lt hy)]
  have hout : ∀ y, outstanding g (c + 1) y = outstanding f c y := by
    intro y
    have hcongr : held SharedFuture.dependents c g = held SharedFuture.dependents c f :=
      held_congr fun j hj ↦ by rw [hother j hj]
    rw [outstanding, held_succ, hgc, hr.dependents, append_nil, hcongr]
    rfl
  have houtc : outstanding f c c = 0 := by
    by_contra hne
    obtain ⟨x, hx, hd⟩ := exists_of_outstanding hne
    exact absurd (h.dependents x hx c hd).1 (Nat.lt_irrefl c)
  have hsettled : ∀ y p, p < c → Settled f y p → Settled g y p := fun y p hp hs ↦ by
    simpa only [Settled, hother p hp] using hs
  have hlt : ∀ a ∈ R, a.1 < c := fun a ha ↦ (h.role a ha).1
  refine ⟨?_, ?_, h.enteredNodup, ?_, ?_, ?_, ?_, ?_, ?_, ?_, ?_⟩
  · cases new with
    | none => exact h.nodup
    | some role =>
      refine nodup_cons.mpr ⟨fun hin ↦ ?_, h.nodup⟩
      obtain ⟨a, ha, hac⟩ := mem_map.mp hin
      exact Nat.ne_of_lt (hlt a ha) hac
  · intro a ha
    rcases mem_append.mp ha with ha | ha
    · obtain ⟨role, hrole, rfl⟩ := mem_map.mp ha
      refine ⟨Nat.lt_succ_self c, ?_⟩
      rcases hr.role role (Option.mem_toList.mp hrole) with ⟨rfl, hs⟩ | ⟨hs, rfl | rfl⟩
      · simpa only [RoleOk, hgc] using hs
      · simp only [RoleOk, hgc, hout, houtc]
        exact ⟨hs, trivial, hr.remaining, trivial⟩
      · have hreg : Registering g c r.priors :=
          ⟨by rw [hgc, hs], by rw [hgc]; exact List.Subset.refl _, fun p hp ↦
            .inl (by rwa [hgc] at hp)⟩
        refine ⟨hreg, ?_⟩
        simp only [hgc, hr.remaining, hout, houtc]
        rfl
    · obtain ⟨hac, hok⟩ := h.role a ha
      have hga := hother a.1 hac
      refine ⟨Nat.lt_succ_of_lt hac, ?_⟩
      -- The priors that the place still has to look at are older than the new future.
      have hcongr : ∀ p ∈ (f a.1).priors, Settled f a.1 p → Settled g a.1 p := fun p hp ↦
        hsettled a.1 p ((h.priors a.1 hac p hp).trans hac)
      cases hrole : a.2 <;> rw [hrole] at hok <;>
        simp only [RoleOk, hga, hout] at hok ⊢ <;> try exact hok
      all_goals
        refine ⟨⟨?_, ?_, ?_⟩, hok.2⟩
        · rw [hga]
          exact hok.1.status
        · rw [hga]
          exact hok.1.rest_subset
        · rw [hga]
          exact fun p hp ↦ (hok.1.settled p hp).imp_right (hcongr p hp)
  · intro y hy
    obtain ⟨hyc, hs⟩ := h.entered y hy
    exact ⟨Nat.lt_succ_of_lt hyc, by simpa only [hother y hyc] using hs⟩
  · intro y hy hs
    rcases Nat.lt_succ_iff_lt_or_eq.mp hy with hyc | rfl
    · exact h.readyEntered y hyc (by simpa only [hother y hyc] using hs)
    · simp only [hgc] at hs
      rcases hr.status with hc | ⟨hc, -⟩ <;> exact absurd (hs.symm.trans hc) (by simp)
  · intro y hy p hp
    rcases Nat.lt_succ_iff_lt_or_eq.mp hy with hyc | rfl
    · exact h.priors y hyc p (by simpa only [hother y hyc] using hp)
    · exact hr.priors p (by simpa only [hgc] using hp)
  · intro y hy d hd
    rcases Nat.lt_succ_iff_lt_or_eq.mp hy with hyc | rfl
    · obtain ⟨hdc, hrest⟩ := h.dependents y hyc d (by simpa only [hother y hyc] using hd)
      exact ⟨Nat.lt_succ_of_lt hdc, by simpa only [hother d hdc] using hrest⟩
    · simp [hgc, hr.dependents] at hd
  · intro y hy hs p hp
    rcases Nat.lt_succ_iff_lt_or_eq.mp hy with hyc | rfl
    · simp only [hother y hyc] at hs hp
      exact hsettled y p ((h.priors y hyc p hp).trans hyc) (h.settled y hyc hs p hp)
    · simp only [hgc] at hs hp
      have hready := (hr.status.resolve_left hs).2 p hp
      exact .inl (by simpa only [hother p (hr.priors p hp)] using hready)
  · intro y hy hs
    rcases Nat.lt_succ_iff_lt_or_eq.mp hy with hyc | rfl
    · simp only [hother y hyc] at hs
      obtain ⟨hrem, hl⟩ := h.onHold y hyc hs
      simp only [hout, hother y hyc]
      exact ⟨hrem, fun hz ↦ mem_append_right _ (hl hz)⟩
    · simp only [hgc] at hs
      rcases hr.status with hc | ⟨hc, -⟩ <;> exact absurd (hs.symm.trans hc) (by simp)
  · intro y hy hs hne
    rcases Nat.lt_succ_iff_lt_or_eq.mp hy with hyc | rfl
    · simp only [hother y hyc] at hs hne
      exact mem_append_right _ (h.signalling y hyc hs hne)
    · simp [hgc, hr.dependents] at hne
  · intro q hq d hk
    -- A future older than the new one has the places it had.
    have hheld : ∀ d < c, ¬Held ⟨f, c, e, R⟩ d →
        ¬Held ⟨g, c + 1, e, new.toList.map (Prod.mk c) ++ R⟩ d := by
      rintro d hdc hnone ⟨role, hin⟩
      rcases mem_append.mp hin with hin | hin
      · obtain ⟨_, -, heq⟩ := mem_map.mp hin
        exact Nat.ne_of_gt hdc (congrArg fst heq)
      · exact hnone ⟨role, hin⟩
    rcases Nat.lt_succ_iff_lt_or_eq.mp hq with hqc | rfl
    · simp only [hother q hqc] at hk
      obtain ⟨hqd, hfresh⟩ := h.registration q hqc d hk
      refine ⟨hqd, fun hne ↦ ?_⟩
      obtain ⟨hs, hz, ho, hnone⟩ := hfresh hne
      have hdc : d < c := by omega
      simp only [hother d hdc, hout]
      exact ⟨hs, hz, ho, hheld d hdc hnone⟩
    · simp only [hgc] at hk
      obtain ⟨hqd, hs, hz, ho, hnone⟩ := hr.registration d hk
      have hdc : d < q := by
        have : q = d + 1 := hqd
        omega
      simp only [hother d hdc, hout]
      exact ⟨hqd, fun _ ↦ ⟨hs, hz, ho, hheld d hdc hnone⟩⟩

end Ledger
end Hisab.Parallel
