import BlockAffinity.Proofs.Json.Strings

/-!
# BlockAffinity.Proofs.Json.Reading

**Documents are read back from their compact form**, if all their strings have texts and their numbers
are lexemes (`readDocument?_compact`). This is a property of each document wherever it stands: the
reader finds it and stops right behind it (`Document.Found`), provided that what follows is not taken
for more of a number. Arrays and objects are found because what is in them is (`found_array`,
`found_object`).
-/

namespace BlockAffinity.Json

open Document

/-! ### Documents that can be written -/

/-- A text that is a number, in the characters that numbers are written with. -/
structure IsLexeme (lexeme : String) : Prop where
  chars : ∀ c ∈ lexeme.toList, isNumberChar c = true
  isNumber : (Number.ofLexeme? lexeme).isSome

namespace Document

/-- All strings of a document have texts, and all its numbers are lexemes. -/
inductive IsPlain : Document → Prop
  | null : IsPlain .null
  | bool (value : Bool) : IsPlain (.bool value)
  | number {lexeme : String} (h : IsLexeme lexeme) : IsPlain (.number lexeme)
  | string (text : String) : IsPlain (.ofString text)
  | array {elements : List Document} (h : ∀ element ∈ elements, IsPlain element) :
      IsPlain (.array elements)
  | object {members : List (String × Document)} (h : ∀ member ∈ members, IsPlain member.2) :
      IsPlain (.ofMembers members)

end Document

/-- A text that does not go on as a number would. -/
def EndsNumber (cs : List Char) : Prop := ∀ c ∈ cs.head?, isNumberChar c = false

theorem endsNumber_cons {c : Char} (h : isNumberChar c = false) (cs : List Char) :
    EndsNumber (c :: cs) := by
  intro d hd
  rw [List.head?_cons, Option.mem_some] at hd
  exact hd ▸ h

/-- Where the reader is at a document. -/
def StartsDocument (cs : List Char) : Prop :=
  ∃ c rest, cs = c :: rest ∧ isSpace c = false ∧ c ≠ ']' ∧ c ≠ '\x7d'

namespace Document

/-- A document is found at the front of a text, with enough fuel for each character of its compact
form. -/
structure Found (document : Document) : Prop where
  starts : StartsDocument document.compact.toList
  scan : ∀ {fuel : Nat} {rest : List Char}, 2 * document.compact.toList.length ≤ fuel →
    EndsNumber rest →
    scanDocument? fuel (document.compact.toList ++ rest) = some (document, rest)

end Document

theorem skipSpaces_cons {c : Char} (h : isSpace c = false) (cs : List Char) :
    skipSpaces (c :: cs) = c :: cs := List.dropWhile_cons_of_neg (by simp [h])

/-! ### Atoms -/

theorem found_null : Found .null where
  starts := ⟨'n', ['u', 'l', 'l'], rfl, by decide, by decide, by decide⟩
  scan {fuel rest} hfuel _ := by
    obtain ⟨fuel, rfl⟩ : ∃ f, fuel = f + 1 :=
      ⟨fuel - 1, by have : 2 * 4 ≤ fuel := hfuel; omega⟩
    rw [scanDocument?]
    rfl

theorem found_bool (value : Bool) : Found (.bool value) where
  starts := by
    cases value with
    | true => exact ⟨'t', ['r', 'u', 'e'], rfl, by decide, by decide, by decide⟩
    | false => exact ⟨'f', ['a', 'l', 's', 'e'], rfl, by decide, by decide, by decide⟩
  scan {fuel rest} hfuel _ := by
    cases value with
    | true =>
        obtain ⟨fuel, rfl⟩ : ∃ f, fuel = f + 1 :=
          ⟨fuel - 1, by have : 2 * 4 ≤ fuel := hfuel; omega⟩
        rw [scanDocument?]
        rfl
    | false =>
        obtain ⟨fuel, rfl⟩ : ∃ f, fuel = f + 1 :=
          ⟨fuel - 1, by have : 2 * 5 ≤ fuel := hfuel; omega⟩
        rw [scanDocument?]
        rfl

theorem found_string (text : String) : Found (.ofString text) := by
  have hcompact : (ofString text).compact.toList =
      '"' :: (text.toList.flatMap escapeChar ++ ['"']) := toList_quoted text
  refine ⟨⟨_, _, hcompact, by decide, by decide, by decide⟩, fun {fuel rest} hfuel _ => ?_⟩
  obtain ⟨fuel, rfl⟩ : ∃ f, fuel = f + 1 :=
    ⟨fuel - 1, by rw [hcompact, List.length_cons] at hfuel; omega⟩
  rw [hcompact, List.cons_append, List.append_assoc, scanDocument?]
  show (scanString? (text.toList.flatMap escapeChar ++ '"' :: rest)).map _ = _
  rw [scanString?_escaped]
  rfl

/-! ### Numbers -/

theorem isSpace_of_isNumberChar {c : Char} (h : isNumberChar c = true) : isSpace c = false := by
  cases hspace : isSpace c with
  | false => rfl
  | true =>
      simp only [isSpace, Bool.or_eq_true, beq_iff_eq] at hspace
      rcases hspace with ((rfl | rfl) | rfl) | rfl <;> exact absurd h (by decide)

/-- What begins as a number is read as one. -/
theorem scanDocument?_number (fuel : Nat) {c : Char} (hc : isNumberChar c = true)
    (cs : List Char) :
    scanDocument? (fuel + 1) (c :: cs) =
      (scanLexeme? (c :: cs)).map fun (lexeme, rest) => (.number lexeme, rest) := by
  rw [scanDocument?, skipSpaces_cons (isSpace_of_isNumberChar hc)]
  split
  · contradiction
  all_goals first
    | rfl
    | (rename_i heq
       obtain ⟨rfl, -⟩ := List.cons.inj heq
       exact absurd hc (by decide))

theorem scanLexeme?_append {lexeme : String} (h : IsLexeme lexeme) {rest : List Char}
    (hrest : EndsNumber rest) :
    scanLexeme? (lexeme.toList ++ rest) = some (lexeme, rest) := by
  have hnone : rest.takeWhile isNumberChar = [] ∧ rest.dropWhile isNumberChar = rest := by
    cases rest with
    | nil => exact ⟨rfl, rfl⟩
    | cons c cs =>
        have hc : ¬isNumberChar c = true := by simp [hrest c rfl]
        exact ⟨List.takeWhile_cons_of_neg hc, List.dropWhile_cons_of_neg hc⟩
  have htake : (lexeme.toList ++ rest).takeWhile isNumberChar = lexeme.toList := by
    rw [List.takeWhile_append_of_pos h.chars, hnone.1, List.append_nil]
  have hdrop : (lexeme.toList ++ rest).dropWhile isNumberChar = rest := by
    rw [List.dropWhile_append_of_pos h.chars, hnone.2]
  obtain ⟨number, hnumber⟩ : ∃ number, Number.scan? lexeme.toList = some (number, []) := by
    have hsome := h.isNumber
    rw [Number.ofLexeme?] at hsome
    split at hsome
    · exact ⟨_, by assumption⟩
    · cases hsome
  rw [scanLexeme?, htake, hdrop, hnumber, String.ofList_toList]

theorem found_number {lexeme : String} (h : IsLexeme lexeme) : Found (.number lexeme) := by
  have hcompact : (number lexeme).compact = lexeme := rfl
  obtain ⟨c, cs, hcs⟩ : ∃ c cs, lexeme.toList = c :: cs := by
    cases hcs : lexeme.toList with
    | nil =>
        have hnumber := h.isNumber
        rw [Number.ofLexeme?, hcs] at hnumber
        exact absurd hnumber (by decide)
    | cons c cs => exact ⟨c, cs, rfl⟩
  have hc : isNumberChar c = true := h.chars c (by rw [hcs]; exact List.mem_cons_self)
  refine ⟨⟨c, cs, hcs, isSpace_of_isNumberChar hc, ?_, ?_⟩, fun {fuel rest} hfuel hrest => ?_⟩
  · rintro rfl
    exact absurd hc (by decide)
  · rintro rfl
    exact absurd hc (by decide)
  · obtain ⟨fuel, rfl⟩ : ∃ f, fuel = f + 1 :=
      ⟨fuel - 1, by rw [hcompact, hcs, List.length_cons] at hfuel; omega⟩
    have hscan := scanLexeme?_append h hrest
    rw [hcs, List.cons_append] at hscan
    rw [hcompact, hcs, List.cons_append, scanDocument?_number fuel hc, hscan]
    rfl

/-! ### Arrays -/

theorem scanElements?_compact {elements : List Document} (hne : elements ≠ [])
    (hfound : ∀ element ∈ elements, Found element) (fuel : Nat) (rest : List Char)
    (hfuel : 2 * (compactElements elements).toList.length + 1 ≤ fuel) :
    scanElements? fuel ((compactElements elements).toList ++ ']' :: rest) =
      some (elements, rest) := by
  induction elements generalizing fuel with
  | nil => exact absurd rfl hne
  | cons element elements ih =>
      have helement := hfound element List.mem_cons_self
      obtain ⟨fuel, rfl⟩ : ∃ f, fuel = f + 1 := ⟨fuel - 1, by omega⟩
      cases elements with
      | nil =>
          rw [compactElements] at hfuel ⊢
          rw [scanElements?, helement.scan (by omega) (endsNumber_cons (by decide) _)]
          rfl
      | cons next elements =>
          have hcompact : (compactElements (element :: next :: elements)).toList =
              element.compact.toList ++ ',' :: (compactElements (next :: elements)).toList := by
            simp [compactElements]
          rw [hcompact, List.length_append, List.length_cons] at hfuel
          rw [hcompact, List.append_assoc, List.cons_append, scanElements?,
            helement.scan (by omega) (endsNumber_cons (by decide) _)]
          have hrest := ih (by simp) (fun e he => hfound e (List.mem_cons_of_mem _ he))
            fuel (by omega)
          show (scanElements? fuel ((compactElements (next :: elements)).toList ++ ']' :: rest)).bind _ = _
          rw [hrest]
          rfl

theorem starts_compactElements {elements : List Document} (hne : elements ≠ [])
    (hfound : ∀ element ∈ elements, Found element) :
    StartsDocument (compactElements elements).toList := by
  cases elements with
  | nil => exact absurd rfl hne
  | cons element elements =>
      have hstarts := (hfound element List.mem_cons_self).starts
      cases elements with
      | nil => exact hstarts
      | cons next elements =>
          obtain ⟨c, front, heq, hc⟩ := hstarts
          refine ⟨c, front ++ ',' :: (compactElements (next :: elements)).toList, ?_, hc⟩
          simp [compactElements, heq]

theorem scanDocument?_elements (fuel : Nat) {c : Char} (hspace : isSpace c = false) (hc : c ≠ ']')
    (cs : List Char) :
    scanDocument? (fuel + 1) ('[' :: c :: cs) =
      (scanElements? fuel (c :: cs)).map fun (elements, rest) => (.array elements, rest) := by
  rw [scanDocument?, skipSpaces_cons (by decide)]
  split
  case h_3 rest heq =>
    obtain rfl : c :: cs = rest := (List.cons.inj heq).2
    rw [skipSpaces_cons hspace]
    split
    · rename_i heq
      exact absurd (List.cons.inj heq).1 hc
    · rfl
  case h_8 hbracket _ _ _ _ => exact absurd rfl (hbracket _)
  all_goals
    rename_i heq
    exact absurd heq (by simp)

/-- **An array is found** if its elements are. -/
theorem found_array {elements : List Document} (hfound : ∀ element ∈ elements, Found element) :
    Found (.array elements) := by
  have hcompact : (array elements).compact.toList =
      '[' :: ((compactElements elements).toList ++ [']']) := by
    simp [compact]
  refine ⟨⟨_, _, hcompact, by decide, by decide, by decide⟩, fun {fuel rest} hfuel _ => ?_⟩
  rw [hcompact, List.length_cons, List.length_append, List.length_singleton] at hfuel
  obtain ⟨fuel, rfl⟩ : ∃ f, fuel = f + 1 := ⟨fuel - 1, by omega⟩
  rw [hcompact, List.cons_append, List.append_assoc]
  by_cases hne : elements = []
  · subst hne
    rw [scanDocument?]
    rfl
  · have hscan := scanElements?_compact hne hfound fuel rest (by omega)
    obtain ⟨c, front, heq, hspace, hc, -⟩ := starts_compactElements hne hfound
    rw [heq, List.cons_append] at hscan ⊢
    rw [scanDocument?_elements fuel hspace hc, List.singleton_append, hscan]
    rfl

/-! ### Objects -/

theorem scanMembers?_member {fuel : Nat} (key : String) {value : Document} (hvalue : Found value)
    (cs : List Char) (hfuel : 2 * value.compact.toList.length ≤ fuel) (hend : EndsNumber cs) :
    scanMembers? (fuel + 1) ((quoted key).toList ++ ':' :: (value.compact.toList ++ cs)) =
      match skipSpaces cs with
      | ',' :: rest => do
          let (members, rest) ← scanMembers? fuel rest
          return ((some key, value) :: members, rest)
      | '\x7d' :: rest => return ([(some key, value)], rest)
      | _ => none := by
  rw [toList_quoted, scanMembers?, List.cons_append, skipSpaces_cons (by decide),
    List.append_assoc]
  show (scanString? (key.toList.flatMap escapeChar ++ '"' :: _)).bind _ = _
  rw [scanString?_escaped, Option.bind_some]
  show (scanDocument? fuel (value.compact.toList ++ cs)).bind _ = _
  rw [hvalue.scan hfuel hend]
  rfl

/-- The members of an object whose keys all have texts. -/
abbrev keyed (members : List (String × Document)) : List (Option String × Document) :=
  members.map fun (key, value) => (some key, value)

theorem scanMembers?_compact {members : List (String × Document)} (hne : members ≠ [])
    (hfound : ∀ member ∈ members, Found member.2) (fuel : Nat) (rest : List Char)
    (hfuel : 2 * (compactMembers (keyed members)).toList.length + 1 ≤ fuel) :
    scanMembers? fuel ((compactMembers (keyed members)).toList ++ '\x7d' :: rest) =
      some (keyed members, rest) := by
  induction members generalizing fuel with
  | nil => exact absurd rfl hne
  | cons member members ih =>
      obtain ⟨key, value⟩ := member
      have hvalue : Found value := hfound (key, value) List.mem_cons_self
      obtain ⟨fuel, rfl⟩ : ∃ f, fuel = f + 1 := ⟨fuel - 1, by omega⟩
      cases members with
      | nil =>
          have hcompact : (compactMembers (keyed [(key, value)])).toList =
              (quoted key).toList ++ ':' :: value.compact.toList := by
            simp [compactMembers, quotedText]
          rw [hcompact, List.length_append, List.length_cons] at hfuel
          rw [hcompact, List.append_assoc, List.cons_append,
            scanMembers?_member key hvalue _ (by omega) (endsNumber_cons (by decide) _)]
          rfl
      | cons next members =>
          have hcompact : (compactMembers (keyed ((key, value) :: next :: members))).toList =
              (quoted key).toList ++ ':' :: (value.compact.toList ++
                ',' :: (compactMembers (keyed (next :: members))).toList) := by
            simp [compactMembers, quotedText]
          rw [hcompact, List.length_append, List.length_cons, List.length_append,
            List.length_cons] at hfuel
          rw [hcompact, List.append_assoc, List.cons_append, List.append_assoc, List.cons_append,
            scanMembers?_member key hvalue _ (by omega) (endsNumber_cons (by decide) _),
            skipSpaces_cons (by decide)]
          have hrest := ih (by simp) (fun m hm => hfound m (List.mem_cons_of_mem _ hm))
            fuel (by omega)
          show (scanMembers? fuel ((compactMembers (keyed (next :: members))).toList ++
            '\x7d' :: rest)).bind _ = _
          rw [hrest]
          rfl

/-- **An object is found** if the values of its members are. -/
theorem found_object {members : List (String × Document)}
    (hfound : ∀ member ∈ members, Found member.2) : Found (.ofMembers members) := by
  have hcompact : (ofMembers members).compact.toList =
      '\x7b' :: ((compactMembers (keyed members)).toList ++ ['\x7d']) := by
    simp [ofMembers, compact]
  refine ⟨⟨_, _, hcompact, by decide, by decide, by decide⟩, fun {fuel rest} hfuel _ => ?_⟩
  rw [hcompact, List.length_cons, List.length_append, List.length_singleton] at hfuel
  obtain ⟨fuel, rfl⟩ : ∃ f, fuel = f + 1 := ⟨fuel - 1, by omega⟩
  rw [hcompact, List.cons_append, List.append_assoc, List.singleton_append]
  cases members with
  | nil =>
      rw [scanDocument?]
      rfl
  | cons member members =>
      have hscan := scanMembers?_compact (by simp) hfound fuel rest (by omega)
      -- members begin with the quote of a key
      obtain ⟨front, heq⟩ : ∃ front, (compactMembers (keyed (member :: members))).toList =
          '"' :: front := by
        obtain ⟨key, value⟩ := member
        cases members with
        | nil => simp [compactMembers, quotedText, toList_quoted]
        | cons next members => simp [compactMembers, quotedText, toList_quoted]
      rw [heq, List.cons_append] at hscan ⊢
      rw [scanDocument?, skipSpaces_cons (by decide)]
      show (scanMembers? fuel ('"' :: (front ++ '\x7d' :: rest))).map _ = _
      rw [hscan]
      rfl

/-! ### All documents -/

/-- **A document that can be written** is found wherever it stands. -/
theorem Document.IsPlain.found {document : Document} (h : IsPlain document) : Found document := by
  induction h with
  | null => exact found_null
  | bool value => exact found_bool value
  | number h => exact found_number h
  | string text => exact found_string text
  | array _ ih => exact found_array ih
  | object _ ih => exact found_object ih

/-- **A document is read back** from its compact form. -/
theorem readDocument?_compact {document : Document} (h : IsPlain document) :
    readDocument? document.compact = some document := by
  have hscan : scanDocument? (2 * document.compact.toList.length + 2)
      (document.compact.toList ++ []) = some (document, []) :=
    h.found.scan (by omega) (by simp [EndsNumber])
  rw [List.append_nil] at hscan
  rw [readDocument?]
  show (scanDocument? _ document.compact.toList).bind _ = _
  rw [hscan]
  rfl

end BlockAffinity.Json
