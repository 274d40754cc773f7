import Hisab.Profiler.AnnotationStack

/-!
# The annotation stack is the live scope stack

In every state a thread finds the annotations of its scopes that are open and were pushed since
the last change of the generation, joined. They split back exactly if none but the innermost
one ends with a colon.
-/

namespace Hisab.Profiler

open Base Function List AnnotationData

/-! ### The data of a thread -/

/-- Annotations as they are joined, innermost first. -/
def joinedTexts (texts : List (List Char)) : List Char :=
  annotationDelimiter.intercalate texts.reverse

/-- The length of the text before each annotation, innermost first. -/
def textSizes : List (List Char) → List Nat
  | [] => []
  | _ :: texts => (joinedTexts texts).length :: textSizes texts

/-- The data holds these annotations, innermost first. -/
structure AnnotationData.Holds (data : AnnotationData) (texts : List (List Char)) : Prop where
  string : data.string = joinedTexts texts
  stack : data.stack = textSizes texts
  ids : data.scopeRangeIdStack.length = texts.length

section Data

variable {data : AnnotationData} {texts : List (List Char)} {name : List Char}

@[simp] theorem joinedTexts_nil : joinedTexts [] = [] := rfl

theorem joinedTexts_ne_nil (hne : texts ≠ []) (hnonempty : ∀ a ∈ texts, a ≠ []) :
    joinedTexts texts ≠ [] :=
  intercalate_ne_nil (by simpa using hne) fun a ha ↦ hnonempty a (mem_reverse.mp ha)

theorem joinedTexts_cons (hnonempty : ∀ a ∈ texts, a ≠ []) (name : List Char) :
    joinedTexts (name :: texts) =
      if joinedTexts texts ≠ [] then joinedTexts texts ++ (annotationDelimiter ++ name)
      else name := by
  by_cases hnil : texts = []
  · subst hnil
    exact intercalate_singleton
  · rw [if_pos (joinedTexts_ne_nil hnil hnonempty), joinedTexts, reverse_cons]
    exact intercalate_concat _ (by simpa using hnil) name

/-- The text of the outer annotations is the beginning of the text. -/
theorem take_joinedTexts (hnonempty : ∀ a ∈ texts, a ≠ []) (name : List Char) :
    (joinedTexts (name :: texts)).take (joinedTexts texts).length = joinedTexts texts ∧
      (joinedTexts texts).length ≤ (joinedTexts (name :: texts)).length := by
  rw [joinedTexts_cons hnonempty]
  split
  · rw [take_left, length_append]
    exact ⟨rfl, Nat.le_add_right ..⟩
  next h =>
    rw [not_not] at h
    rw [h]
    exact ⟨rfl, Nat.zero_le _⟩

namespace AnnotationData

theorem holds_nil {generation : Nat} : Holds { generation } [] := ⟨rfl, rfl, rfl⟩

theorem Holds.push (h : data.Holds texts) (hnonempty : ∀ a ∈ texts, a ≠ []) (id : Nat) :
    (data.push name id).Holds (name :: texts) where
  string := by rw [joinedTexts_cons hnonempty, ← h.string]; rfl
  stack := by rw [textSizes, ← h.stack, ← h.string]; rfl
  ids := congrArg (· + 1) h.ids

theorem Holds.pop (h : data.Holds (name :: texts)) (hnonempty : ∀ a ∈ texts, a ≠ []) :
    data.pop.Holds texts := by
  obtain ⟨htake, hle⟩ := take_joinedTexts hnonempty name
  have hpop : data.pop = { data with
      stack := textSizes texts
      string := data.string.take (joinedTexts texts).length ++
        replicate ((joinedTexts texts).length - data.string.length) '\x00'
      scopeRangeIdStack := data.scopeRangeIdStack.tail } := by
    rw [AnnotationData.pop, h.stack]
    rfl
  refine ⟨?_, by rw [hpop], ?_⟩
  · rw [hpop]
    rw [h.string, htake, Nat.sub_eq_zero_of_le hle]
    exact append_nil _
  · rw [hpop, length_tail, h.ids]
    rfl

/-- A scope that was pushed before the last change finds the stack empty. -/
theorem Holds.pop_nil (h : data.Holds []) : data.pop.Holds [] := by
  have hpop : data.pop = { data with string := [], scopeRangeIdStack := [] } := by
    rw [AnnotationData.pop, h.stack]
    rfl
  rw [hpop]
  exact ⟨rfl, h.stack, rfl⟩

@[simp] theorem get_generation (generation : Nat) (data : AnnotationData) :
    (data.get generation).generation = generation := by
  rw [get]
  split
  · rfl
  next h => exact (not_not.mp h).symm

@[simp] theorem push_generation (id : Nat) : (data.push name id).generation = data.generation := rfl

@[simp] theorem pop_generation : data.pop.generation = data.generation := by
  rw [pop]
  split <;> rfl

end AnnotationData

end Data

/-! ### The invariant -/

/-- The annotations of the current scopes, in the order of the scopes. -/
def currentTexts (scopes : List AnnotationScope) : List (List Char) :=
  (scopes.filter AnnotationScope.current).map AnnotationScope.annotation

/-- What holds of a thread: its data is about its current scopes, unless the generation has
changed and there are none. A scope that was pushed before a change has no current scope
around it. -/
structure ThreadOk (generation : Nat) (data : AnnotationData) (scopes : List AnnotationScope) :
    Prop where
  le : data.generation ≤ generation
  ordered : scopes.Pairwise fun inner outer ↦
    inner.pushed = true → inner.current = false → outer.current = false
  pushed : ∀ scope ∈ scopes, scope.current = true → scope.pushed = true
  nonempty : ∀ scope ∈ scopes, scope.annotation ≠ []
  holds : data.generation = generation → data.Holds (currentTexts scopes)
  stale : data.generation ≠ generation → currentTexts scopes = []

namespace ThreadOk

variable {generation : Nat} {data : AnnotationData} {scopes : List AnnotationScope}
  {scope : AnnotationScope}

theorem texts_nonempty (h : ThreadOk generation data scopes) : ∀ a ∈ currentTexts scopes, a ≠ [] := by
  intro a ha
  obtain ⟨scope, hscope, rfl⟩ := mem_map.mp ha
  exact h.nonempty scope (mem_of_mem_filter hscope)

/-- What the thread finds holds its current scopes. -/
theorem found (h : ThreadOk generation data scopes) :
    (data.get generation).Holds (currentTexts scopes) := by
  rw [AnnotationData.get]
  split
  next hne =>
    rw [h.stale (Ne.symm hne)]
    exact holds_nil
  next heq => exact h.holds (not_not.mp heq).symm

/-- The thread has accessed its data. -/
theorem of_holds {data' : AnnotationData} (h : ThreadOk generation data scopes)
    (hgen : data'.generation = generation) (hholds : data'.Holds (currentTexts scopes)) :
    ThreadOk generation data' scopes :=
  { h with le := hgen.le, holds := fun _ ↦ hholds, stale := fun hne ↦ absurd hgen hne }

/-- A scope opens that does not push. -/
theorem opens (h : ThreadOk generation data scopes) { annotation : List Char}
    (hne : annotation ≠ []) : ThreadOk generation data
      ({ annotation, pushed := false, current := false } :: scopes) where
  le := h.le
  ordered := pairwise_cons.mpr ⟨fun _ _ hpushed ↦ (by cases hpushed), h.ordered⟩
  pushed := forall_mem_cons.mpr ⟨fun hcurrent ↦ (by cases hcurrent), h.pushed⟩
  nonempty := forall_mem_cons.mpr ⟨hne, h.nonempty⟩
  holds := h.holds
  stale := h.stale

/-- A scope pushes its annotation. -/
theorem push (h : ThreadOk generation data scopes) { annotation : List Char}
    (hne : annotation ≠ []) (id : Nat) :
    ThreadOk generation ((data.get generation).push annotation id)
      ({ annotation, pushed := true, current := true } :: scopes) where
  le := by simp
  ordered := pairwise_cons.mpr ⟨fun _ _ _ hcurrent ↦ (by cases hcurrent), h.ordered⟩
  pushed := forall_mem_cons.mpr ⟨fun _ ↦ rfl, h.pushed⟩
  nonempty := forall_mem_cons.mpr ⟨hne, h.nonempty⟩
  holds _ := h.found.push h.texts_nonempty id
  stale hgen := absurd (by simp) hgen

theorem tail (h : ThreadOk generation data (scope :: scopes))
    (hcurrent : scope.current = false) : ThreadOk generation data scopes := by
  have htexts : currentTexts (scope :: scopes) = currentTexts scopes := by
    rw [currentTexts, filter_cons, if_neg (by simp [hcurrent])]
    rfl
  exact ⟨h.le, (pairwise_cons.mp h.ordered).2, fun z hz ↦ h.pushed z (by simp [hz]),
    fun z hz ↦ h.nonempty z (by simp [hz]), fun hgen ↦ htexts ▸ h.holds hgen,
    fun hgen ↦ htexts ▸ h.stale hgen⟩

/-- The innermost scope closes. -/
theorem close (h : ThreadOk generation data (scope :: scopes)) :
    ThreadOk generation (if scope.pushed then (data.get generation).pop else data) scopes := by
  obtain ⟨hinner, hordered⟩ := pairwise_cons.mp h.ordered
  cases hcurrent : scope.current with
  | true =>
    rw [if_pos (h.pushed scope (by simp) hcurrent)]
    have htexts : currentTexts (scope :: scopes) = scope.annotation :: currentTexts scopes := by
      rw [currentTexts, filter_cons, if_pos hcurrent]
      rfl
    have hfound := h.found
    have hnonempty := h.texts_nonempty
    rw [htexts] at hfound hnonempty
    exact ⟨by simp, hordered, fun z hz ↦ h.pushed z (by simp [hz]),
      fun z hz ↦ h.nonempty z (by simp [hz]),
      fun _ ↦ hfound.pop fun a ha ↦ hnonempty a (by simp [ha]), fun hgen ↦ absurd (by simp) hgen⟩
  | false =>
    have htail := h.tail hcurrent
    by_cases hpushed : scope.pushed = true
    · -- it was pushed before the last change, so nothing around it is current
      rw [if_pos hpushed]
      have hnil : currentTexts scopes = [] := by
        rw [currentTexts, filter_eq_nil_iff.mpr fun z hz ↦ by simp [hinner z hz hpushed hcurrent]]
        rfl
      have hfound := htail.found
      rw [hnil] at hfound
      exact htail.of_holds (by simp) (hnil ▸ hfound.pop_nil)
    · rwa [if_neg hpushed]

/-- The generation changes. -/
theorem change (h : ThreadOk generation data scopes) {generation' : Nat}
    (hlt : generation < generation') :
    ThreadOk generation' data (scopes.map fun scope ↦ { scope with current := false }) := by
  have hnil : currentTexts (scopes.map fun scope ↦ { scope with current := false }) = [] := by
    rw [currentTexts, filter_eq_nil_iff.mpr fun z hz ↦ ?_]
    · rfl
    · obtain ⟨scope, -, rfl⟩ := mem_map.mp hz
      simp
  refine ⟨by have := h.le; omega, ?_, ?_, ?_, fun hgen ↦ ?_, fun _ ↦ hnil⟩
  · exact pairwise_map.mpr (pairwise_iff_forall_sublist.mpr fun _ _ _ ↦ rfl)
  · rintro z hz hcurrent
    obtain ⟨scope, -, rfl⟩ := mem_map.mp hz
    cases hcurrent
  · rintro z hz
    obtain ⟨scope, hscope, rfl⟩ := mem_map.mp hz
    exact h.nonempty scope hscope
  · have := h.le
    omega

end ThreadOk

/-- A change of the generation is an increase. -/
theorem nextGeneration_le {generation generation' : Nat} {enable : Bool}
    (h : nextGeneration generation enable = some generation') : generation ≤ generation' := by
  cases enable with
  | true =>
    cases h
    exact Nat.left_le_or
  | false =>
    rw [nextGeneration] at h
    split at h
    · cases h
      omega
    · cases h

namespace AnnotationState

/-- What every state keeps. -/
structure Ok (s : AnnotationState) : Prop where
  threads : ∀ t, ThreadOk s.generation (s.data t) (s.scopes t)
  pushing : ∀ t annotation, s.pushing t = some annotation → annotation ≠ []

variable {s s' : AnnotationState} {a : AnnotationStep} {t : Nat}

theorem Ok.setThread (hs : s.Ok) {data : AnnotationData} {scopes : List AnnotationScope}
    (ht : ThreadOk s.generation data scopes) : (s.setThread t data scopes).Ok := by
  refine ⟨fun z ↦ ?_, hs.pushing⟩
  rw [AnnotationState.setThread]
  by_cases hz : z = t
  · subst hz
    simpa using ht
  · simpa [update_of_ne hz] using hs.threads z

theorem Ok.pushing_update (hs : s.Ok) {p : Option (List Char)}
    (hp : ∀ annotation, p = some annotation → annotation ≠ []) (z : Nat) ( annotation : List Char)
    (hz : update s.pushing t p z = some annotation) : annotation ≠ [] := by
  by_cases hzt : z = t
  · subst hzt
    rw [update_self] at hz
    exact hp annotation hz
  · rw [update_of_ne hzt] at hz
    exact hs.pushing z annotation hz

/-- A step keeps the data of every thread about its current scopes. -/
theorem step_ok (hstep : s.step a = some s') (hs : s.Ok) : s'.Ok := by
  cases a with
  | enable enable =>
    obtain ⟨generation, hgen, hstep⟩ := Option.bind_eq_some_iff.mp hstep
    have hle := nextGeneration_le hgen
    split at hstep
    · cases hstep
      exact hs
    next hne =>
      have hlt : s.generation < generation := by omega
      cases hstep
      exact ⟨fun t ↦ (hs.threads t).change hlt, hs.pushing⟩
  | opens t annotation =>
    rw [AnnotationState.step] at hstep
    split at hstep
    · cases hstep
    next hne =>
      rw [not_or] at hne
      split at hstep
      · cases hstep
        exact ⟨hs.threads, hs.pushing_update fun text htext ↦ Option.some.inj htext ▸ hne.1⟩
      · cases hstep
        exact hs.setThread ((hs.threads t).opens hne.1)
  | push t =>
    obtain ⟨ annotation, hpushing, hstep⟩ := Option.bind_eq_some_iff.mp hstep
    dsimp only at hstep
    split at hstep
    · cases hstep
      have ht := hs.setThread ((hs.threads t).push (hs.pushing t annotation hpushing)
        (s.scopeRangeCounter + 1)) (t := t)
      exact ⟨ht.threads, hs.pushing_update nofun⟩
    · cases hstep
  | close t =>
    rw [AnnotationState.step] at hstep
    split at hstep
    next scope scopes _ hscopes =>
      cases hstep
      exact hs.setThread (hscopes ▸ hs.threads t).close
    · cases hstep
  | get t =>
    rw [AnnotationState.step] at hstep
    split at hstep
    · cases hstep
      exact hs.setThread ((hs.threads t).of_holds (by simp [found]) (hs.threads t).found)
    · cases hstep

theorem reachable_ok (hs : annotationPrograms.Reachable s) : s.Ok := by
  refine hs.invariant (I := Ok) ?_ fun s a s' hs hstep ↦ step_ok hstep hs
  rintro s rfl
  refine ⟨fun t ↦ ⟨le_rfl, .nil, ?_, ?_, fun _ ↦ holds_nil, fun _ ↦ rfl⟩, ?_⟩
  · exact nofun
  · exact nofun
  · exact nofun

end AnnotationState

/-! ### Splitting back -/

section Splitting

variable {text name : List Char} {texts : List (List Char)}

theorem splitString_head {delimiter : Char} {maxSplits splits : Nat} {part : List Char}
    {parts : List (List Char)} (h : splitString delimiter maxSplits splits text = part :: parts) :
    part <+: text := by
  induction text generalizing splits part parts with
  | nil =>
    obtain rfl := (cons.inj h).1
    exact prefix_rfl
  | cons c text ih =>
    rw [splitString] at h
    split at h
    · obtain rfl := (cons.inj h).1
      exact nil_prefix
    · split at h
      next hpart =>
        obtain rfl := (cons.inj h).1
        exact (cons_prefix_cons.mpr ⟨rfl, ih hpart⟩)
      · obtain rfl := (cons.inj h).1
        exact cons_prefix_cons.mpr ⟨rfl, nil_prefix⟩

/-- The name is read from the beginning of the text. -/
theorem splitNameAndMetadata_prefix (text : List Char) : (splitNameAndMetadata text).1 <+: text := by
  rw [splitNameAndMetadata]
  split
  · split
    next h => exact (splitString_head h).trans ( dropLast_prefix text)
    next h => exact (splitString_head h).trans ( dropLast_prefix text)
    · exact nil_prefix
  · exact prefix_rfl

theorem length_dropWhile_le {p : Char → Bool} (h : name <+: text) :
    (name.dropWhile p).length ≤ (text.dropWhile p).length := by
  obtain ⟨rest, rfl⟩ := h
  rw [dropWhile_append]
  split
  next hnil => rw [isEmpty_iff.mp hnil]; exact Nat.zero_le _
  · rw [length_append]
    exact Nat.le_add_right ..

theorem length_parsed_name_le (text : List Char) :
    ( parseAnnotation text).name.length ≤ (text.dropWhile isSpace).length :=
  ( rdropWhile_prefix isSpace _).length_le.trans
    (length_dropWhile_le ( splitNameAndMetadata_prefix text))

/-- A colon at the end belongs to the name. -/
theorem length_parsed_name_colon (text : List Char) :
    ( parseAnnotation (text ++ [':'])).name.length = (text.dropWhile isSpace).length + 1 := by
  have hmetadata : hasMetadata (text ++ [':']) = false := by
    rw [hasMetadata, getLast?_concat]
    rfl
  have hdrop : (text ++ [':']).dropWhile isSpace = text.dropWhile isSpace ++ [':'] := by
    rw [dropWhile_append]
    split
    next hnil => rw [isEmpty_iff.mp hnil]; rfl
    · rfl
  rw [ parseAnnotation, splitNameAndMetadata, hmetadata, if_neg (by simp)]
  rw [stripWhitespace, hdrop, rdropWhile_concat_neg _ _ _ (by decide), length_append]
  rfl

/-- Joined annotations are split back exactly if none but the last one ends with a colon. -/
theorem parseAnnotationStack_join_iff (hnonempty : ∀ a ∈ texts, a ≠ [])
    (hdouble : ∀ a ∈ texts, ¬ annotationDelimiter <:+: a) :
    parseAnnotationStack (annotationDelimiter.intercalate texts) = texts.map parseAnnotation ↔
      ∀ a ∈ texts.dropLast, a.getLast? ≠ some ':' := by
  refine ⟨fun h ↦ ?_, fun hlast ↦ ?_⟩
  · induction texts with
    | nil => exact nofun
    | cons name texts ih =>
      cases texts with
      | nil => exact nofun
      | cons next texts =>
        have hname := hdouble name (by simp)
        have htail := fun a ha ↦ hdouble a (mem_cons_of_mem name ha)
        rw [ parseAnnotationStack, intercalate_cons_cons, append_assoc,
          splitDoubleNonempty, annotationDelimiter] at h
        by_cases hlast : name.getLast? = some ':'
        · -- the colon goes to the next part
          obtain ⟨text, rfl⟩ := getLast?_eq_some_iff.mp hlast
          rw [cons_append, cons_append, nil_append, splitDouble_append_mark hname] at h
          by_cases htext : text = []
          · subst htext
            have hle := (length_splitDoubleNonempty_join htail (by simp)).2
            have hlen := congrArg length h
            rw [filter_cons_of_neg (by simp), length_map, length_map, length_cons] at hlen
            rw [splitDoubleNonempty] at hle
            omega
          · rw [filter_cons_of_pos (by simpa using htext)] at h
            have hlen := congrArg (fun a ↦ a.name.length) (cons.inj h).1
            rw [length_parsed_name_colon] at hlen
            have := length_parsed_name_le text
            omega
        · rw [cons_append, cons_append, splitDouble_append hname hlast,
            filter_cons_of_pos (by simpa using hnonempty name (by simp))] at h
          have ih := ih (fun a ha ↦ hnonempty a (by simp [ha])) htail (cons.inj h).2
          exact forall_mem_cons.mpr ⟨hlast, ih⟩
  · rw [ parseAnnotationStack, annotationDelimiter, splitDoubleNonempty_join hnonempty hdouble hlast]

end Splitting

/-! ### Every state -/

namespace AnnotationState

variable {s : AnnotationState} {t : Nat}

theorem live_eq (s : AnnotationState) (t : Nat) : s.live t = (currentTexts (s.scopes t)).reverse := by
  rw [live, currentTexts, filter_reverse, map_reverse]

theorem reverse_textSizes (texts : List (List Char)) :
    (textSizes texts).reverse = (List.range texts.length).map fun k ↦
      (annotationDelimiter.intercalate (texts.reverse.take k)).length := by
  induction texts with
  | nil => rfl
  | cons name texts ih =>
    have hlength := texts.length_reverse
    rw [textSizes, reverse_cons, ih, length_cons, range_succ, map_append, reverse_cons]
    refine congrArg₂ (· ++ ·) (map_congr_left fun k hk ↦ ?_) ?_
    · have hk := mem_range.mp hk
      rw [take_append_of_le_length (by omega)]
    · rw [← hlength, map_singleton, take_left]
      rfl

/-- In every state, what a thread finds is the join of the annotations of its scopes that are
open and were pushed since the last change, with as many ids, and for each annotation the
length of the text before it. If none of them has the delimiter inside, they are split back
exactly if none but the innermost one ends with a colon. -/
theorem reachable_live (hs : annotationPrograms.Reachable s) (t : Nat) :
    s.get t = annotationDelimiter.intercalate (s.live t) ∧
    (s.found t).scopeRangeIdStack.length = (s.live t).length ∧
    (s.found t).stack.reverse = (List.range (s.live t).length).map (fun k ↦
      (annotationDelimiter.intercalate ((s.live t).take k)).length) ∧
    ((∀ a ∈ s.live t, ¬ annotationDelimiter <:+: a) →
      (parseAnnotationStack (s.get t) = (s.live t).map parseAnnotation ↔
        ∀ a ∈ (s.live t).dropLast, a.getLast? ≠ some ':')) := by
  have ht := (reachable_ok hs).threads t
  have hfound := ht.found
  have hget : s.get t = annotationDelimiter.intercalate (s.live t) := by
    rw [live_eq]
    exact hfound.string
  refine ⟨hget, ?_, ?_, fun hdouble ↦ ?_⟩
  · rw [live_eq, length_reverse]
    exact hfound.ids
  · rw [live_eq, length_reverse, ← reverse_textSizes]
    exact congrArg reverse hfound.stack
  · rw [hget]
    refine parseAnnotationStack_join_iff (fun a ha ↦ ht.texts_nonempty a ?_) hdouble
    rwa [live_eq, mem_reverse] at ha

/-- Two nested scopes of one thread, opened after the stack was enabled. -/
def nestedScopes (outer inner : List Char) : List AnnotationStep :=
  [.enable true, .opens 0 outer, .push 0, .opens 0 inner, .push 0]

theorem reachable_nestedScopes (outer inner : List Char)
    (h : (nestedScopes outer inner).foldlM step {} = some s) : annotationPrograms.Reachable s :=
  ⟨{}, _, rfl, .of_foldlM (fun _ _ _ hstep ↦ hstep) h⟩

theorem leading_colon_split_back : ∃ s : AnnotationState, s.live 0 = [['a'], [':', 'b']] ∧
    s.get 0 = ['a', ':', ':', ':', 'b'] ∧
      parseAnnotationStack (s.get 0) = (s.live 0).map parseAnnotation := by
  have hs := reachable_nestedScopes ['a'] [':', 'b'] rfl
  exact ⟨_, rfl, rfl, ((reachable_live hs 0).2.2.2 (by decide)).mpr (by decide)⟩

/-- The annotation `a:` around `b` is read back as `a` around `:b`. -/
theorem trailing_colon_split_wrong : ∃ s : AnnotationState,
    annotationPrograms.Reachable s ∧ s.live 0 = [['a', ':'], ['b']] ∧
      (∀ a ∈ s.live 0, ¬ annotationDelimiter <:+: a) ∧
        (parseAnnotationStack (s.get 0)).map (·.name) = [['a'], [':', 'b']] ∧
          parseAnnotationStack (s.get 0) ≠ (s.live 0).map parseAnnotation := by
  refine ⟨_, reachable_nestedScopes ['a', ':'] ['b'] rfl, rfl, ?_, ?_, ?_⟩ <;>
    decide

end AnnotationState

end Hisab.Profiler
