import Hisab.Profiler.Annotation

/-!
# Reading written metadata back

The pairs written one after another are read back exactly if the reader's stack of quotes
and brackets never meets a comma while it is empty, except between two pairs, where it
must be empty. A quote or bracket left open by one pair swallows the pairs after it.
-/

namespace Hisab.Profiler

open List TraceMeArg

/-- What the claim of the format is about: nothing that collides with its marks. -/
structure TraceMeArg.Clean (arg : TraceMeArg) : Prop where
  key_ne : arg.key ≠ []
  value_ne : arg.value ≠ []
  key_strip : stripWhitespace arg.key = arg.key
  value_strip : stripWhitespace arg.value = arg.value
  key_mark : '#' ∉ arg.key
  value_mark : '#' ∉ arg.value
  key_equals : '=' ∉ arg.key
  key_comma : ',' ∉ arg.key

/-- One pair as it is written, without the separator. -/
def TraceMeArg.text (arg : TraceMeArg) : List Char := arg.key ++ '=' :: arg.value

/-- The quotes and brackets open after `text`. -/
def openAfter (quotes text : List Char) : List Char := text.foldl scanQuote quotes

/-- Every comma of `text` is inside a quote or bracket that is open there. -/
def Enclosed (quotes text : List Char) : Prop :=
  ∀ before after, text = before ++ ',' :: after → openAfter quotes before ≠ []

/-- Commas only inside open quotes or brackets, and none left open before the next pair. -/
def Separable : List (List Char) → Prop
  | [] => True
  | [text] => Enclosed [] text
  | text :: texts => Enclosed [] text ∧ openAfter [] text = [] ∧ Separable texts

/-- Pairs with a comma between each two. -/
def joined : List (List Char) → List Char
  | [] => []
  | [text] => text
  | text :: texts => text ++ ',' :: joined texts

@[simp] theorem openAfter_nil (quotes : List Char) : openAfter quotes [] = quotes := rfl

@[simp] theorem openAfter_cons (quotes : List Char) (c : Char) (text : List Char) :
    openAfter quotes (c :: text) = openAfter (scanQuote quotes c) text := rfl

theorem openAfter_append (quotes text text' : List Char) :
    openAfter quotes (text ++ text') = openAfter (openAfter quotes text) text' :=
  foldl_append

/-- A character that is no quote or bracket leaves the stack alone. -/
theorem scanQuote_of_plain {c : Char}
    (h : c ∉ ['\x22', '\x27', '\x7b', '(', '[', '\x7d', ')', ']']) (quotes : List Char) :
    scanQuote quotes c = quotes := by
  simp only [mem_cons, not_or] at h
  obtain ⟨h₁, h₂, h₃, h₄, h₅, h₆, h₇, h₈⟩ := h
  simp [scanQuote, h₁, h₂, h₃, h₄, h₅, h₆, h₇, h₈]

theorem scanQuote_isSpace {c : Char} (h : isSpace c = true) (quotes : List Char) :
    scanQuote quotes c = quotes := by
  refine scanQuote_of_plain (fun hc ↦ ?_) quotes
  simp only [mem_cons, not_mem_nil, or_false] at hc
  rcases hc with rfl | rfl | rfl | rfl | rfl | rfl | rfl | rfl <;> revert h <;> decide

theorem openAfter_isSpace {text : List Char} (h : ∀ c ∈ text, isSpace c = true)
    (quotes : List Char) : openAfter quotes text = quotes := by
  induction text with
  | nil => rfl
  | cons c text ih =>
    rw [openAfter_cons, scanQuote_isSpace (h c (by simp)), ih (fun d hd ↦ h d (by simp [hd]))]

namespace Enclosed

variable {quotes text : List Char}

theorem nil (quotes : List Char) : Enclosed quotes [] := by
  intro before after h
  simp at h

theorem cons {c : Char} (h : Enclosed quotes (c :: text)) :
    ¬ (c = ',' ∧ quotes = []) ∧ Enclosed (scanQuote quotes c) text := by
  constructor
  · rintro ⟨rfl, rfl⟩
    exact h [] text rfl rfl
  · rintro before after rfl
    exact h (c :: before) after rfl

/-- Enclosure can be decided by one scan. -/
instance decidable : (quotes text : List Char) → Decidable (Enclosed quotes text)
  | quotes, [] => isTrue (nil quotes)
  | quotes, c :: text =>
    have := decidable (scanQuote quotes c) text
    decidable_of_iff (¬ (c = ',' ∧ quotes = []) ∧ Enclosed (scanQuote quotes c) text) (by
      refine ⟨fun h before after he ↦ ?_, cons⟩
      cases before with
      | nil =>
        cases he
        exact fun hq ↦ h.1 ⟨rfl, hq⟩
      | cons d before =>
        cases he
        exact h.2 before after rfl)

theorem concat (h : Enclosed quotes text) {c : Char}
    (hc : ¬ (c = ',' ∧ openAfter quotes text = [])) : Enclosed quotes (text ++ [c]) := by
  intro before after he
  rcases append_eq_append_iff.mp he with ⟨mid, rfl, hmid⟩ | ⟨mid, rfl, hmid⟩
  · cases mid with
    | nil =>
      cases hmid
      rw [append_nil]
      exact fun ho ↦ hc ⟨rfl, ho⟩
    | cons d mid => simp at hmid
  · cases mid with
    | nil =>
      cases hmid
      rw [append_nil] at hc
      exact fun ho ↦ hc ⟨rfl, ho⟩
    | cons d mid =>
      cases hmid
      exact h before mid rfl

end Enclosed

/-! ### Splitting -/

/-- Text whose commas are all enclosed does not end a piece. -/
theorem splitPairs_append {quotes text : List Char} (h : Enclosed quotes text)
    (piece rest : List Char) :
    splitPairs quotes piece (text ++ rest) =
      splitPairs (openAfter quotes text) (piece ++ text) rest := by
  induction text generalizing quotes piece with
  | nil => rw [nil_append, openAfter_nil, append_nil]
  | cons c text ih =>
    obtain ⟨hc, ht⟩ := h.cons
    rw [cons_append, splitPairs, if_neg hc, ih ht, openAfter_cons, append_assoc, singleton_append]

/-- Every piece has only enclosed commas. -/
theorem enclosed_of_mem_splitPairs {piece text : List Char} (h : Enclosed [] piece)
    {found : List Char} (hf : found ∈ splitPairs (openAfter [] piece) piece text) :
    Enclosed [] found := by
  have hkeep {piece : List Char} {pieces : List (List Char)} (h : Enclosed [] piece)
      (hp : ∀ found ∈ pieces, Enclosed [] found) : ∀ found ∈ keepPiece piece pieces,
        Enclosed [] found := by
    intro found hf
    unfold keepPiece at hf
    split at hf
    · rcases mem_cons.mp hf with rfl | hf
      · exact h
      · exact hp found hf
    · exact hp found hf
  induction text generalizing piece found with
  | nil => exact hkeep h (fun _ hx ↦ (by cases hx)) found hf
  | cons c text ih =>
    rw [splitPairs] at hf
    split at hf
    · refine hkeep h (fun x hx ↦ ?_) found hf
      exact ih (.nil []) hx
    · next hc =>
      refine ih (h.concat hc) ?_
      rwa [openAfter_append]

/-- A piece long enough to be kept is the start of the first piece found. -/
theorem splitPairs_head (piece : List Char) (hlen : 1 < piece.length) (quotes text : List Char) :
    ∃ more pieces, splitPairs quotes piece text = (piece ++ more) :: pieces := by
  induction text generalizing quotes piece with
  | nil => exact ⟨[], [], by rw [splitPairs, keepPiece, if_pos hlen, append_nil]⟩
  | cons c text ih =>
    rw [splitPairs]
    split
    · exact ⟨[], _, by rw [keepPiece, if_pos hlen, append_nil]⟩
    · obtain ⟨more, pieces, h⟩ := ih (piece ++ [c]) (by simp; omega) (scanQuote quotes c)
      exact ⟨c :: more, pieces, by rw [h, append_assoc, singleton_append]⟩

/-! ### Pairs -/

namespace TraceMeArg

variable {arg : TraceMeArg}

theorem text_length (h : arg.Clean) : 1 < arg.text.length := by
  have hk := length_pos_iff.mpr h.key_ne
  simp [text]
  omega

/-- A pair is read back from its own text. -/
theorem parsePair_text (h : arg.Clean) : parsePair arg.text = some arg := by
  unfold parsePair text
  rw [splitString_append h.key_equals (by omega), splitString_limit (by decide) (by decide)]
  dsimp only
  rw [h.key_strip, h.value_strip, if_pos ⟨h.key_ne, h.value_ne⟩]

/-- Text that goes on after a comma is read as another value. -/
theorem parsePair_longer (h : arg.Clean) (more : List Char) :
    ∃ found, parsePair (arg.text ++ ',' :: more) = some found ∧ found ≠ arg := by
  have hstart : stripWhitespace (arg.value ++ ',' :: more) ≠ [] ∧
      stripWhitespace (arg.value ++ ',' :: more) ≠ arg.value := by
    obtain ⟨before, after, he, hb, ha⟩ := exists_strip (arg.value ++ ',' :: more)
    have hmem : ',' ∈ before ++ stripWhitespace (arg.value ++ ',' :: more) ++ after := by
      rw [← he]
      simp
    have hcomma : isSpace ',' = false := rfl
    have hin : ',' ∈ stripWhitespace (arg.value ++ ',' :: more) := by
      rcases mem_append.mp hmem with hmem | hmem
      · rcases mem_append.mp hmem with hmem | hmem
        · rw [hb _ hmem] at hcomma
          cases hcomma
        · exact hmem
      · rw [ha _ hmem] at hcomma
        cases hcomma
    refine ⟨ne_nil_of_mem hin, fun heq ↦ ?_⟩
    -- The value keeps its place at the start, so the comma would be whitespace.
    have hbefore : before = [] := by
      cases before with
      | nil => rfl
      | cons c before =>
        obtain ⟨v, value, hv⟩ := exists_cons_of_ne_nil h.value_ne
        rw [hv] at he
        have hvc : v = c := by injection he
        have hspace : isSpace v = true := hvc ▸ hb c (by simp)
        have hstrip := h.value_strip
        rw [hv, stripWhitespace, dropWhile_cons_of_pos hspace] at hstrip
        have hlen := congrArg length hstrip
        have h₁ := ( rdropWhile_prefix (p := isSpace) (l := value.dropWhile isSpace)).length_le
        have h₂ := (dropWhile_suffix isSpace (l := value)).length_le
        rw [length_cons] at hlen
        omega
    rw [heq, hbefore] at he
    have hafter := append_cancel_left he
    have hspace : isSpace ',' = true := ha ',' (by rw [← hafter]; simp)
    cases hspace
  refine ⟨{ key := arg.key, value := stripWhitespace (arg.value ++ ',' :: more) }, ?_, fun he ↦
    hstart.2 (congrArg value he)⟩
  unfold parsePair text
  rw [append_assoc, cons_append, splitString_append h.key_equals (by omega),
    splitString_limit (by decide) (by decide)]
  dsimp only
  rw [h.key_strip, if_pos ⟨h.key_ne, hstart.1⟩]

end TraceMeArg

/-- What is read as a pair has only enclosed commas, if its key has none. -/
theorem enclosed_of_mem_parseMetadata {metadata : List Char} {arg : TraceMeArg}
    (h : arg ∈ parseMetadata metadata) (hkey : ',' ∉ arg.key) : Enclosed [] arg.text := by
  obtain ⟨pair, hpair, hparse⟩ := mem_filterMap.mp h
  have hpiece := enclosed_of_mem_splitPairs (.nil []) hpair
  by_cases heq : '=' ∈ pair
  · obtain ⟨part, part', rfl, hpart⟩ := eq_append_cons_of_mem heq
    rw [parsePair, splitString_append hpart (by omega), splitString_limit (by decide) (by decide)]
      at hparse
    dsimp only at hparse
    split at hparse
    · cases hparse
      obtain ⟨b, a, hk, hb, ha⟩ := exists_strip part
      obtain ⟨b', a', hv, hb', ha'⟩ := exists_strip part'
      generalize stripWhitespace part = key at hk hkey
      generalize stripWhitespace part' = value at hv
      subst hk hv
      intro before after he
      have hsplit : ∃ p, before = key ++ '=' :: p ∧ value = p ++ ',' :: after := by
        rcases append_eq_append_iff.mp he with ⟨mid, rfl, hmid⟩ | ⟨mid, rfl, hmid⟩
        · cases mid with
          | nil => cases hmid
          | cons c mid =>
            cases hmid
            exact ⟨mid, rfl, rfl⟩
        · cases mid with
          | nil => cases hmid
          | cons c mid =>
            cases hmid
            exact absurd (by simp) hkey
      obtain ⟨p, rfl, rfl⟩ := hsplit
      have := hpiece (b ++ key ++ a ++ '=' :: (b' ++ p)) (after ++ a') (by simp)
      rw [openAfter_append, openAfter_append, openAfter_append, openAfter_cons, openAfter_append,
        openAfter_isSpace hb, openAfter_isSpace ha, openAfter_isSpace hb'] at this
      rwa [openAfter_append]
    · cases hparse
  · rw [parsePair, splitString_of_not_mem heq] at hparse
    cases hparse

/-! ### Lists of pairs -/

theorem joined_append {texts texts' : List (List Char)} (h : texts ≠ []) (h' : texts' ≠ []) :
    joined (texts ++ texts') = joined texts ++ ',' :: joined texts' := by
  induction texts with
  | nil => exact absurd rfl h
  | cons text texts ih =>
    cases texts with
    | nil =>
      cases texts' with
      | nil => exact absurd rfl h'
      | cons => rfl
    | cons next texts =>
      change text ++ ',' :: joined (next :: texts ++ texts') =
        text ++ ',' :: joined (next :: texts) ++ ',' :: joined texts'
      rw [ih (by simp), append_assoc, cons_append]

theorem not_mem_joined {c : Char} (hc : c ≠ ',') {texts : List (List Char)}
    (h : ∀ text ∈ texts, c ∉ text) : c ∉ joined texts := by
  induction texts with
  | nil => exact not_mem_nil
  | cons text texts ih =>
    have htext := h text (by simp)
    have ih := ih (fun t ht ↦ h t (by simp [ht]))
    cases texts with
    | nil => exact htext
    | cons next texts =>
      change c ∉ text ++ ',' :: joined (next :: texts)
      simp [htext, ih, hc]

variable {args : List TraceMeArg}

/-- Pairs that stand apart are read back one by one; the others are not. -/
theorem parseMetadata_joined (h : ∀ arg ∈ args, arg.Clean) :
    parseMetadata (joined (args.map TraceMeArg.text)) = args ↔
      Separable (args.map TraceMeArg.text) := by
  induction args with
  | nil => exact iff_of_true rfl trivial
  | cons arg args ih =>
    have harg := h arg (by simp)
    have ih := ih (fun a ha ↦ h a (by simp [ha]))
    have hlen := text_length harg
    have hself (hp : parseMetadata (joined ((arg :: args).map text)) = arg :: args) :
        Enclosed [] arg.text := by
      have hmem : arg ∈ parseMetadata (joined ((arg :: args).map text)) := by
        rw [hp]
        exact mem_cons_self
      exact enclosed_of_mem_parseMetadata hmem harg.key_comma
    cases args with
    | nil =>
      refine ⟨hself, fun hs ↦ ?_⟩
      change (splitPairs [] [] arg.text).filterMap parsePair = [arg]
      have := splitPairs_append hs [] []
      rw [append_nil, nil_append] at this
      rw [this, splitPairs, keepPiece, if_pos hlen, filterMap_cons, parsePair_text harg]
      rfl
    | cons next args =>
      have hjoined : joined ((arg :: next :: args).map text) =
          arg.text ++ ',' :: joined ((next :: args).map text) := rfl
      have hread (hs : Enclosed [] arg.text) (ho : openAfter [] arg.text = []) :
          parseMetadata (joined ((arg :: next :: args).map text)) =
            arg :: parseMetadata (joined ((next :: args).map text)) := by
        rw [hjoined, parseMetadata, splitPairs_append hs, nil_append, ho, splitPairs,
          if_pos ⟨rfl, rfl⟩, keepPiece, if_pos hlen, filterMap_cons,
          parsePair_text harg]
        rfl
      constructor
      · intro hp
        have hs := hself hp
        have ho : openAfter [] arg.text = [] := by
          by_contra ho
          rw [hjoined, parseMetadata, splitPairs_append hs, nil_append, splitPairs,
            if_neg (fun hx ↦ ho hx.2)] at hp
          obtain ⟨more, pieces, hhead⟩ := splitPairs_head (arg.text ++ [','])
            (by simp; omega) (scanQuote (openAfter [] arg.text) ',')
            (joined ((next :: args).map text))
          obtain ⟨found, hfound, hne⟩ := parsePair_longer harg more
          rw [hhead, append_assoc, singleton_append, filterMap_cons, hfound] at hp
          exact hne (cons.inj hp).1
        refine ⟨hs, ho, ih.mp ?_⟩
        rw [hread hs ho] at hp
        exact (cons.inj hp).2
      · rintro ⟨hs, ho, hrest⟩
        rw [hread hs ho, ih.mpr hrest]

theorem Separable.of_append {texts texts' : List (List Char)} (h : Separable (texts ++ texts')) :
    Separable texts := by
  induction texts with
  | nil => trivial
  | cons text texts ih =>
    cases texts with
    | nil =>
      cases texts' with
      | nil => exact h
      | cons => exact h.1
    | cons next texts => exact ⟨h.1, h.2.1, ih h.2.2⟩

/-! ### The round trip -/

/-- The name with the pairs between the marks. -/
theorem tracemeEncode_eq (name : List Char) (h : args ≠ []) :
    tracemeEncode name args = name ++ '#' :: joined (args.map TraceMeArg.text) ++ ['#'] := by
  have hwritten : (args.flatMap written).dropLast =
      joined (args.map text) ∧ args.flatMap written ≠ [] := by
    induction args with
    | nil => exact absurd rfl h
    | cons arg args ih =>
      have hw : arg.written = arg.text ++ [','] := by simp [written, text]
      rw [flatMap_cons, hw]
      refine ⟨?_, by simp⟩
      cases args with
      | nil =>
        rw [flatMap_nil, append_nil, dropLast_concat]
        rfl
      | cons next args =>
        obtain ⟨hj, hn⟩ := ih (by simp)
        rw [dropLast_append_of_ne_nil hn, hj, append_assoc]
        rfl
  rw [tracemeEncode, appendArgs, if_neg h, dropLast_append_of_ne_nil (by simp),
    dropLast_cons_of_ne_nil hwritten.2, hwritten.1]

/-- Appending metadata is writing all arguments at once. -/
theorem appendMetadata_tracemeEncode {name : List Char} (hname : '#' ∉ name)
    (args more : List TraceMeArg) :
    appendMetadata (tracemeEncode name args) (tracemeEncode [] more) =
      tracemeEncode name (args ++ more) := by
  by_cases hmore : more = []
  · subst hmore
    rw [append_nil]
    exact if_pos rfl
  rw [appendMetadata]
  by_cases hargs : args = []
  · subst hargs
    have hlast : ¬ (tracemeEncode name []).getLast? = some '#' := by
      intro hl
      exact hname (mem_of_getLast? hl)
    rw [if_neg hlast, nil_append, tracemeEncode_eq [] hmore, tracemeEncode_eq name hmore]
    simp [tracemeEncode, appendArgs]
  · have happend : args ++ more ≠ [] := append_ne_nil_of_left_ne_nil hargs more
    have hj : joined ((args ++ more).map text) =
        joined (args.map text) ++ ',' :: joined (more.map text) := by
      rw [map_append, joined_append (by simpa using hargs) (by simpa using hmore)]
    rw [tracemeEncode_eq name hargs, tracemeEncode_eq [] hmore, tracemeEncode_eq name happend, hj,
      getLast?_concat, dropLast_concat]
    simp

/-- The name and the text between the marks. -/
theorem parseAnnotation_marked {name metadata : List Char} (hname : '#' ∉ name)
    (hmetadata : '#' ∉ metadata) :
    parseAnnotation (name ++ '#' :: metadata ++ ['#']) =
      { name := stripWhitespace name, metadata := parseMetadata metadata } := by
  have hparts : splitNameAndMetadata (name ++ '#' :: metadata ++ ['#']) = (name, metadata) := by
    unfold splitNameAndMetadata hasMetadata
    rw [getLast?_concat, dropLast_concat, splitString_append hname (by omega),
      splitString_of_not_mem hmetadata]
    rfl
  unfold parseAnnotation
  rw [hparts]

theorem parseAnnotation_tracemeEncode {name : List Char} (hname : '#' ∉ name)
    (h : ∀ arg ∈ args, arg.Clean) : parseAnnotation (tracemeEncode name args) =
      { name := stripWhitespace name
        metadata := parseMetadata (joined (args.map TraceMeArg.text)) } := by
  by_cases hargs : args = []
  · subst hargs
    have hmark : hasMetadata name = false := by
      rw [hasMetadata, decide_eq_false_iff_not]
      exact fun hl ↦ hname (mem_of_getLast? hl)
    change parseAnnotation name = _
    unfold parseAnnotation splitNameAndMetadata
    rw [hmark]
    rfl
  · rw [tracemeEncode_eq name hargs]
    refine parseAnnotation_marked hname (not_mem_joined (by decide) (fun text ht ↦ ?_))
    obtain ⟨arg, harg, rfl⟩ := mem_map.mp ht
    have hclean := h arg harg
    simp [text, hclean.key_mark, hclean.value_mark]

/-- The pairs written at once, and those appended to them, are read back exactly if each
comma of a pair is enclosed and no pair but the last leaves a quote or bracket open. -/
theorem metadata_read_back_iff {name : List Char} (hname : '#' ∉ name)
    {args more : List TraceMeArg} (h : ∀ arg ∈ args ++ more, arg.Clean) :
    ( parseAnnotation (tracemeEncode name args) =
        { name := stripWhitespace name, metadata := args } ∧
      parseAnnotation (appendMetadata (tracemeEncode name args) (tracemeEncode [] more)) =
        { name := stripWhitespace name, metadata := args ++ more }) ↔
      Separable ((args ++ more).map TraceMeArg.text) := by
  have hargs : ∀ arg ∈ args, arg.Clean := fun arg ha ↦ h arg (mem_append_left _ ha)
  rw [appendMetadata_tracemeEncode hname, parseAnnotation_tracemeEncode hname hargs,
    parseAnnotation_tracemeEncode hname h, Annotation.mk.injEq, Annotation.mk.injEq,
    parseMetadata_joined hargs, parseMetadata_joined h]
  refine ⟨fun hp ↦ hp.2.2, fun hs ↦ ⟨⟨rfl, ?_⟩, rfl, hs⟩⟩
  rw [map_append] at hs
  exact hs.of_append

/-- A bracketed comma and a quoted one, in pairs that close what they open. -/
theorem bracketed_pairs_read_back : let args : List TraceMeArg :=
      [{ key := ['a'], value := ['[', '1', ',', '2', ']'] }, { key := ['b'], value := ['3'] }]
    let more : List TraceMeArg := [{ key := ['c'], value := ['\x27', ',', '\x27'] }]
    parseAnnotation (tracemeEncode ['n'] args) = { name := ['n'], metadata := args } ∧
      parseAnnotation (appendMetadata (tracemeEncode ['n'] args) (tracemeEncode [] more)) =
        { name := ['n'], metadata := args ++ more } := by
  refine (metadata_read_back_iff (by decide) (fun arg h ↦ ?_)).mpr
    ⟨by decide, by decide, by decide, by decide,
      (by decide : Enclosed [] ['c', '=', '\x27', ',', '\x27'])⟩
  simp only [cons_append, nil_append, mem_cons, not_mem_nil, or_false] at h
  rcases h with rfl | rfl | rfl
  all_goals constructor <;> decide

/-- An apostrophe takes the pair after it into its own value. -/
theorem apostrophe_swallows_pair : let args : List TraceMeArg :=
      [{ key := ['a'], value := ['i', 't', '\x27', 's'] }, { key := ['b'], value := ['1'] }]
    (∀ arg ∈ args, arg.Clean ∧ ',' ∉ arg.value) ∧ parseAnnotation (tracemeEncode ['n'] args) =
        { name := ['n']
          metadata := [{ key := ['a'], value := ['i', 't', '\x27', 's', ',', 'b', '=', '1'] }] } ∧
      parseAnnotation (tracemeEncode ['n'] args) ≠ { name := ['n'], metadata := args } := by
  refine ⟨fun arg h ↦ ?_, by decide, by decide⟩
  simp only [mem_cons, not_mem_nil, or_false] at h
  rcases h with rfl | rfl
  all_goals exact ⟨by constructor <;> decide, by decide⟩

end Hisab.Profiler
