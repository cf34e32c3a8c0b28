import BlockAffinity.CommandLine.Arguments
import BlockAffinity.Proofs.Lists
import Mathlib.Data.List.Basic

/-!
# BlockAffinity.Proofs.CommandLine.Items

**Arguments as items.** An item is a flag with its value, a switch, or an argument that is neither;
the value of a flag may be any text, also one that looks like a flag. Every list of arguments is the
spelling of some items, unless it ends with a flag that lacks its value (`Item.isComplete_iff`).

Reading the spelling of items gives the last value for each file, all values for settings in order,
and all switches; the other arguments are noted (`readOptions_spell`).
-/

namespace BlockAffinity.CommandLine

/-- A flag with its value, a switch, or an argument that is neither. -/
inductive Item
  | flag (typed : String) (flag : ValueFlag) (value : String) (spelled : (typed, flag) ∈ valueFlags)
  | switch (typed : String) (switch : Switch) (spelled : (typed, switch) ∈ switches)
  | other (text : String) (noFlag : text ∉ valueFlags.map Prod.fst)
      (noSwitch : text ∉ switches.map Prod.fst)

namespace Item

/-- The arguments that an item consists of. -/
def words : Item → List String
  | flag typed _ value _ => [typed, value]
  | switch typed _ _ => [typed]
  | other text _ _ => [text]

/-- The arguments that items consist of. -/
def spell (items : List Item) : List String := items.flatMap words

/-- The value that an item gives to a flag. -/
def value? (wanted : ValueFlag) : Item → Option String
  | flag _ found value _ => if found = wanted then some value else none
  | switch .. => none
  | other .. => none

/-- The values for a flag in either spelling, in the order in which they stand. -/
def valuesOf (flag : ValueFlag) (items : List Item) : List String := items.filterMap (value? flag)

/-- The last value for a flag. -/
def lastValue? (flag : ValueFlag) (items : List Item) : Option String :=
  (valuesOf flag items).getLast?

/-- The value that an item gives to some setting. -/
def override? : Item → Option (Setting × String)
  | flag _ (.setting setting) value _ => some (setting, value)
  | flag _ .output _ _ => none
  | flag _ .config _ _ => none
  | switch .. => none
  | other .. => none

/-- The values for settings, in the order in which they stand. -/
def overridesOf (items : List Item) : List (Setting × String) := items.filterMap override?

/-- The switch that an item is. -/
def switch? : Item → Option Switch
  | switch _ found _ => some found
  | flag .. => none
  | other .. => none

/-- The switches among the items. -/
def switchesOf (items : List Item) : List Switch := items.filterMap switch?

/-- The argument that is neither a flag nor a switch. -/
def unknown? : Item → Option String
  | other text _ _ => some text
  | flag .. => none
  | switch .. => none

/-- The arguments that are neither flags nor switches. -/
def unknownOf (items : List Item) : List String := items.filterMap unknown?

/-- Every flag in the arguments is followed by a value. -/
def IsComplete (arguments : List String) : Prop := ∃ items, arguments = spell items

/-- The arguments end with a flag that lacks its value. -/
def LacksValue (arguments : List String) : Prop :=
  ∃ items typed flag, (typed, flag) ∈ valueFlags ∧ arguments = spell items ++ [typed]

theorem IsComplete.cons {rest : List String} (item : Item) (h : IsComplete rest) :
    IsComplete (item.words ++ rest) := by
  obtain ⟨items, rfl⟩ := h
  exact ⟨item :: items, rfl⟩

theorem LacksValue.cons {rest : List String} (item : Item) (h : LacksValue rest) :
    LacksValue (item.words ++ rest) := by
  obtain ⟨items, typed, flag, hflag, rfl⟩ := h
  exact ⟨item :: items, typed, flag, hflag, (List.append_assoc ..).symm⟩

/-- Arguments are items, or a flag at their end lacks its value. -/
theorem isComplete_or_lacksValue (arguments : List String) :
    IsComplete arguments ∨ LacksValue arguments := by
  match arguments with
  | [] => exact .inl ⟨[], rfl⟩
  | typed :: rest =>
      by_cases hflag : typed ∈ valueFlags.map Prod.fst
      · obtain ⟨⟨typed, flag⟩, hspelled, rfl⟩ := List.mem_map.mp hflag
        match rest with
        | [] => exact .inr ⟨[], typed, flag, hspelled, rfl⟩
        | value :: rest =>
            let item : Item := .flag typed flag value hspelled
            exact (isComplete_or_lacksValue rest).imp (.cons item) (.cons item)
      · by_cases hswitch : typed ∈ switches.map Prod.fst
        · obtain ⟨⟨typed, switch⟩, hspelled, rfl⟩ := List.mem_map.mp hswitch
          let item : Item := .switch typed switch hspelled
          exact (isComplete_or_lacksValue rest).imp (.cons item) (.cons item)
        · let item : Item := .other typed hflag hswitch
          exact (isComplete_or_lacksValue rest).imp (.cons item) (.cons item)

end Item

/-! ### Reading -/

theorem lookup_valueFlags : ∀ entry ∈ valueFlags, valueFlags.lookup entry.1 = some entry.2 := by
  decide

theorem lookup_switches : ∀ entry ∈ switches,
    valueFlags.lookup entry.1 = none ∧ switches.lookup entry.1 = some entry.2 := by
  decide

variable {unknown rest : List String} {o : Options} {typed value text : String}

theorem readFrom_flag {flag : ValueFlag} (h : (typed, flag) ∈ valueFlags) :
    readFrom unknown o (typed :: value :: rest) = readFrom unknown (o.take flag value) rest := by
  rw [readFrom, lookup_valueFlags _ h]

theorem readFrom_switch {switch : Switch} (h : (typed, switch) ∈ switches) :
    readFrom unknown o (typed :: rest) = readFrom unknown (o.turn switch) rest := by
  obtain ⟨hflag, hswitch⟩ := lookup_switches _ h
  cases rest with
  | nil => simp only [readFrom, hflag, hswitch]
  | cons next rest => simp only [readFrom, hflag, hswitch]

theorem readFrom_other (hflag : text ∉ valueFlags.map Prod.fst)
    (hswitch : text ∉ switches.map Prod.fst) :
    readFrom unknown o (text :: rest) = readFrom (unknown ++ [text]) o rest := by
  cases rest with
  | nil => simp only [readFrom, lookup_eq_none hflag, lookup_eq_none hswitch]
  | cons next rest => simp only [readFrom, lookup_eq_none hflag, lookup_eq_none hswitch]

/-- Takes the values and switches of items. -/
def Options.add (o : Options) (items : List Item) : Options where
  output := (Item.lastValue? .output items).or o.output
  config := (Item.lastValue? .config items).or o.config
  overrides := o.overrides ++ Item.overridesOf items
  switches := o.switches ++ Item.switchesOf items

@[simp] theorem Options.add_nil (o : Options) : o.add [] = o := by
  simp [add, Item.lastValue?, Item.valuesOf, Item.overridesOf, Item.switchesOf]

theorem Options.add_append (o : Options) (items more : List Item) :
    o.add (items ++ more) = (o.add items).add more := by
  simp [add, Item.lastValue?, Item.valuesOf, Item.overridesOf, Item.switchesOf, Option.or_assoc]

/-- **Reading one item** takes its value or its switch, or notes it. -/
theorem readFrom_words (item : Item) :
    readFrom unknown o (item.words ++ rest) =
      readFrom (unknown ++ Item.unknownOf [item]) (o.add [item]) rest := by
  cases item with
  | flag typed flag value spelled =>
      have hnone : Item.unknownOf [.flag typed flag value spelled] = [] := rfl
      have hadd : o.add [.flag typed flag value spelled] = o.take flag value := by
        cases flag <;> simp [Options.add, Options.take, Item.lastValue?, Item.valuesOf, Item.value?,
          Item.overridesOf, Item.override?, Item.switchesOf, Item.switch?]
      rw [hnone, List.append_nil, hadd]
      exact readFrom_flag spelled
  | switch typed switch spelled =>
      have hnone : Item.unknownOf [.switch typed switch spelled] = [] := rfl
      have hadd : o.add [.switch typed switch spelled] = o.turn switch := by
        simp [Options.add, Options.turn, Item.lastValue?, Item.valuesOf, Item.value?,
          Item.overridesOf, Item.override?, Item.switchesOf, Item.switch?]
      rw [hnone, List.append_nil, hadd]
      exact readFrom_switch spelled
  | other text noFlag noSwitch =>
      have hadd : o.add [.other text noFlag noSwitch] = o := by
        show Options.mk _ _ (o.overrides ++ []) (o.switches ++ []) = o
        rw [List.append_nil, List.append_nil]
        rfl
      rw [hadd]
      exact readFrom_other noFlag noSwitch

/-- **Reading the spelling of items** takes their values and switches and notes the others. -/
theorem readFrom_spell (items : List Item) :
    readFrom unknown o (Item.spell items ++ rest) =
      readFrom (unknown ++ Item.unknownOf items) (o.add items) rest := by
  induction items generalizing unknown o with
  | nil => simp [Item.spell, Item.unknownOf]
  | cons item items ih =>
      have hunknown : Item.unknownOf (item :: items) =
          Item.unknownOf [item] ++ Item.unknownOf items :=
        List.filterMap_append (l := [item])
      rw [Item.spell, List.flatMap_cons, List.append_assoc, readFrom_words, hunknown,
        show o.add (item :: items) = _ from o.add_append [item] items, ← List.append_assoc]
      exact ih

theorem readOptions_spell (items : List Item) :
    readOptions (Item.spell items) = ⟨Item.unknownOf items, .ok (Options.none.add items)⟩ := by
  rw [readOptions, ← List.append_nil (Item.spell items), readFrom_spell]
  rfl

/-- **A flag without its value** is an error, whatever stands before it. -/
theorem readOptions_spell_flag (items : List Item) {flag : ValueFlag}
    (h : (typed, flag) ∈ valueFlags) :
    readOptions (Item.spell items ++ [typed]) =
      ⟨Item.unknownOf items, .error (flag.shownAs typed)⟩ := by
  rw [readOptions, readFrom_spell, readFrom, lookup_valueFlags _ h]
  rfl

/-- **Arguments are items** if and only if no flag at their end lacks its value. -/
theorem Item.isComplete_iff (arguments : List String) :
    IsComplete arguments ↔ ¬LacksValue arguments := by
  constructor
  · rintro ⟨items, rfl⟩ ⟨others, typed, flag, hflag, heq⟩
    have hread := readOptions_spell items
    rw [heq, readOptions_spell_flag others hflag] at hread
    cases congrArg Reading.options hread
  · exact (isComplete_or_lacksValue arguments).resolve_right

end BlockAffinity.CommandLine
