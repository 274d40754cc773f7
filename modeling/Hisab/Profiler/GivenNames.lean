import Hisab.Profiler.HostEvents
import Hisab.Profiler.ScopeTree

/-!
# The names of nodes

The name under which an event is shown, read off the string that was given to the scope alone,
and when it is the name in this string.
-/

namespace Hisab.Profiler

open List

/-- The name in the string that is given to a scope: what is before the metadata. -/
def givenName (str : List Char) : List Char :=
  if str.getLast? = some '#' then str.takeWhile fun c ↦ c ≠ '#' else str

/-- The name of the node of an event. -/
def Event.nodeName (e : Event) : List Char :=
  eventDisplayName (mayAddDisplayName { name := e.annotated.name })

/-- What the name in a string has to be to be shown as it is. -/
structure ShownAsGiven (str : List Char) : Prop where
  nonempty : givenName str ≠ []
  stripped : hasMetadata str = true → stripWhitespace (givenName str) = givenName str
  noType : opType ((givenName str).rdropWhile isSpace) = []

/-- The first part is what is before the first delimiter. -/
theorem head?_splitString (delimiter : Char) (n : Nat) (str : List Char) :
    (splitString delimiter 0 n str).head? = some (str.takeWhile fun c ↦ c ≠ delimiter) := by
  induction str generalizing n with
  | nil => rfl
  | cons c str ih =>
    rw [splitString]
    by_cases hc : c = delimiter
    · rw [if_pos ⟨hc, fun h ↦ absurd h.1 (Nat.lt_irrefl 0)⟩, hc, takeWhile_cons_of_neg (by simp)]
      rfl
    · rw [if_neg fun h ↦ hc h.1, takeWhile_cons_of_pos (by simpa using hc)]
      have ih := ih n
      cases hsplit : splitString delimiter 0 n str with
      | nil =>
        rw [hsplit] at ih
        cases ih
      | cons part parts =>
        rw [hsplit, head?_cons, Option.some.injEq] at ih
        rw [ih]
        rfl

theorem takeWhile_dropLast {str : List Char} (h : str.getLast? = some '#') :
    (str.dropLast.takeWhile fun c ↦ c ≠ '#') = str.takeWhile fun c ↦ c ≠ '#' := by
  obtain ⟨front, rfl⟩ := getLast?_eq_some_iff.mp h
  rw [dropLast_concat, takeWhile_append]
  split
  next hall =>
    rw [takeWhile_cons_of_neg (by simp), append_nil]
    exact ( takeWhile_prefix _).eq_of_length hall
  next => rfl

/-- The name of an event is the given one, without the whitespace around it if there is
metadata. -/
theorem annotated_name (e : Event) : e.annotated.name =
    if hasMetadata e.name.toList then stripWhitespace (givenName e.name.toList)
    else givenName e.name.toList := by
  rw [Event.annotated]
  split
  next h =>
    have hlast : e.name.toList.getLast? = some '#' := of_decide_eq_true h
    have hhead := head?_splitString '#' 0 e.name.toList.dropLast
    rw [takeWhile_dropLast hlast] at hhead
    rw [givenName, if_pos hlast, parseAnnotation, splitNameAndMetadata, if_pos h]
    split
    next hsplit =>
      rw [hsplit, head?_cons, Option.some.injEq] at hhead
      rw [hhead]
    next hsplit =>
      rw [hsplit, head?_cons, Option.some.injEq] at hhead
      rw [hhead]
    next hsplit =>
      rw [hsplit] at hhead
      cases hhead
  next h => rw [givenName, if_neg fun hlast ↦ h (decide_eq_true hlast)]

/-- No name that starts with `Iterator::` has nothing behind its first colon. -/
theorem opType_iterator {name : List Char} (h : "Iterator::".toList.isPrefixOf name = true) :
    opType name ≠ [] := by
  obtain ⟨rest, rfl⟩ := isPrefixOf_iff_prefix.mp h
  rw [opType]
  simp

theorem mayAddDisplayName_of_empty {metadata : XEventMetadata} (h : metadata.displayName = []) :
    mayAddDisplayName metadata =
      { metadata with displayName := opType (metadata.name.rdropWhile isSpace) } := by
  rw [mayAddDisplayName, if_neg (by rw [h]; simp)]
  dsimp only
  split
  next => rfl
  next hnone => rw [if_neg fun hiterator ↦ hnone (opType_iterator hiterator), not_not.mp hnone, ← h]

/-- A display name is added once. -/
theorem mayAddDisplayName_idem (metadata : XEventMetadata) :
    mayAddDisplayName (mayAddDisplayName metadata) = mayAddDisplayName metadata := by
  by_cases h : metadata.displayName = []
  · rw [mayAddDisplayName_of_empty h]
    by_cases htype : opType (metadata.name.rdropWhile isSpace) = []
    · rw [mayAddDisplayName_of_empty htype]
    · rw [mayAddDisplayName, if_pos htype]
  · have hkeep : mayAddDisplayName metadata = metadata := by rw [mayAddDisplayName, if_pos h]
    rw [hkeep, hkeep]

theorem nodeName_eq (e : Event) : e.nodeName =
    if opType (e.annotated.name.rdropWhile isSpace) ≠ [] then
      opType (e.annotated.name.rdropWhile isSpace)
    else if e.annotated.name ≠ [] then e.annotated.name
    else "TraceEvent".toList := by
  rw [Event.nodeName, mayAddDisplayName_of_empty rfl]
  rfl

theorem length_opType_lt {name : List Char} (h : opType name ≠ []) :
    (opType name).length < name.length := by
  have hdrop : (name.dropWhile fun c ↦ c ≠ ':').length ≤ name.length :=
    (dropWhile_sublist _).length_le
  have hpos := length_pos_iff.mpr h
  rw [opType, length_tail] at hpos ⊢
  omega

theorem length_stripWhitespace_le (str : List Char) :
    (stripWhitespace str).length ≤ str.length := by
  obtain ⟨before, after, hstr, -⟩ := exists_strip str
  have := congrArg length hstr
  rw [length_append, length_append] at this
  omega

/-- The node of an event has the name that was given where this name is shown as it is, and
nowhere else. -/
theorem nodeName_eq_givenName_iff (e : Event) :
    e.nodeName = givenName e.name.toList ↔ ShownAsGiven e.name.toList := by
  have hname := annotated_name e
  have hle : e.annotated.name.length ≤ (givenName e.name.toList).length := by
    rw [hname]
    split
    next => exact length_stripWhitespace_le _
    next => exact Nat.le_refl _
  rw [nodeName_eq]
  constructor
  · intro h
    split at h
    next htype =>
      have hlt := length_opType_lt htype
      have hdrop := ( rdropWhile_prefix isSpace e.annotated.name).length_le
      rw [h] at hlt
      omega
    next htype =>
      split at h
      next hne =>
        refine ⟨h ▸ hne, fun hmeta ↦ ?_, ?_⟩
        · rw [if_pos hmeta] at hname
          rw [← hname, h]
        · rw [← h]
          exact not_not.mp htype
      next hempty =>
        -- a name of whitespace alone, and not that of the default
        rw [not_not.mp hempty] at hname
        split at hname
        next => rw [← h] at hname; exact absurd hname (by decide)
        next => rw [← h] at hname; cases hname
  · intro h
    have hgiven : e.annotated.name = givenName e.name.toList := by
      rw [hname]
      split
      next hmeta => exact h.stripped hmeta
      next => rfl
    rw [hgiven, if_neg (not_not.mpr h.noType), if_pos h.nonempty]

end Hisab.Profiler
