import BlockAffinity.Proofs.CommandLine.Items
import BlockAffinity.Proofs.Except
import BlockAffinity.Proofs.Run.Task

/-!
# BlockAffinity.Proofs.CommandLine.Precedence

**Which argument counts.** Of the values for a setting the last one does, in whichever spelling it
stands (`exists_overrideAll`): setting one of the settings changes no other (`Setting.get_set`), so
what an earlier value did is undone by a later one. Switches count wherever they stand.

`Configured` says all of this about the settings that items make of those of a file. It leaves no
choice (`Configured.unique`), so it determines what the program makes of them
(`applyOptions_add_eq_ok_iff`), and it does not depend on the order in which values for different
flags stand (`Regrouped.configured`). A settings file that is named after the flags that contradict
it is put below them all the same (`Regrouped.move`).
-/

namespace BlockAffinity.CommandLine

variable {α : Type}

namespace Setting

/-- What a setting is set to. -/
def Value (α : Type) : Setting → Type
  | kind => InputKind
  | metric => Metric
  | linkage => Linkage
  | threshold => Option α
  | sweep => List α

/-- What a setting is set to in some settings. -/
def get (s : Settings α) : (setting : Setting) → setting.Value α
  | kind => s.inputKind
  | metric => s.metric
  | linkage => s.linkage
  | threshold => s.threshold
  | sweep => s.sweep

/-- Settings with one of them set. -/
def set (s : Settings α) : (setting : Setting) → setting.Value α → Settings α
  | kind, value => { s with inputKind := value }
  | metric, value => { s with metric := value }
  | linkage, value => { s with linkage := value }
  | threshold, value => { s with threshold := value }
  | sweep, value => { s with sweep := value }

/-- Setting one of the settings changes no other. -/
theorem get_set (s : Settings α) (setting other : Setting) (value : setting.Value α) :
    other.get (setting.set s value) = if h : other = setting then h ▸ value else other.get s := by
  cases setting <;> cases other <;> rfl

/-- The pieces of a text between commas, without the blank ones. -/
def pieces (text : String) : List String :=
  ((text.toList.splitOn ',').map String.ofList).filter fun piece => !Text.isBlank piece

variable [ScalarText α]

/-- What the value of a flag stands for. -/
def Reads : (setting : Setting) → String → setting.Value α → Prop
  | kind, text, found => InputKind.ofText text = .ok found
  | metric, text, found => Metric.ofText text = .ok found
  | linkage, text, found => Linkage.ofText text = .ok found
  | threshold, text, found => ∃ number, ScalarText.read text = .ok number ∧ found = some number
  | sweep, text, found =>
      (pieces text).map (fun piece => ScalarText.read (Text.trim piece)) = found.map .ok

/-- A text stands for one value at most. -/
theorem Reads.unique {setting : Setting} {text : String} {found other : setting.Value α}
    (h : setting.Reads text found) (hother : setting.Reads text other) : found = other := by
  cases setting with
  | kind => exact Except.ok.inj (h.symm.trans hother)
  | metric => exact Except.ok.inj (h.symm.trans hother)
  | linkage => exact Except.ok.inj (h.symm.trans hother)
  | threshold =>
      obtain ⟨number, hread, rfl⟩ := h
      obtain ⟨number', hread', rfl⟩ := hother
      rw [Except.ok.inj (hread.symm.trans hread')]
  | sweep =>
      exact List.map_injective_iff.mpr (fun _ _ => Except.ok.inj) (h.symm.trans hother)

end Setting

variable [ScalarText α]

theorem splitCommas_eq (cs : List Char) : splitCommas cs = cs.splitOn ',' := by
  induction cs with
  | nil => rfl
  | cons c cs ih =>
      rw [splitCommas, List.splitOn_cons_eq_if_modifyHead, ih]
      by_cases hc : c = ','
      · rw [if_pos hc, if_pos (beq_iff_eq.mpr hc)]
      · rw [if_neg hc, if_neg (by simpa using hc)]
        cases hsplit : cs.splitOn ',' with
        | nil => exact absurd hsplit (List.splitOn_ne_nil _ _)
        | cons piece pieces => rfl

/-- **A sweep is read piece by piece.** -/
theorem readSweep_of_reads {text : String} {found : List α} (h : Setting.sweep.Reads text found) :
    readSweep text = .ok found := by
  have hpiece : ∀ (piece : String) (number : α), ScalarText.read (Text.trim piece) = .ok number →
      readNumber (.readSweepThreshold piece) (Text.trim piece) = .ok number := fun _ _ hread =>
    during_mapError_eq_ok_iff.mpr hread
  rw [readSweep, splitCommas_eq, mapM_eq_ok_iff]
  change (Setting.pieces text).map _ = _ at h
  change (Setting.pieces text).map _ = _
  generalize Setting.pieces text = pieces at h ⊢
  induction pieces generalizing found with
  | nil =>
      rw [List.map_eq_nil_iff.mp h.symm]
      rfl
  | cons piece pieces ih =>
      cases found with
      | nil => cases h
      | cons number numbers =>
          obtain ⟨hfirst, hrest⟩ := List.cons.inj h
          rw [List.map_cons, List.map_cons, hpiece piece number hfirst, ih hrest]

/-- **The value of a flag that can be read** is put into the settings. -/
theorem override_of_reads (s : Settings α) {setting : Setting} {text : String}
    {found : setting.Value α} (h : setting.Reads text found) :
    override s setting text = .ok (setting.set s found) := by
  cases setting with
  | kind =>
      rw [override, readName, show InputKind.ofText text = _ from h]
      rfl
  | metric =>
      rw [override, readName, show Metric.ofText text = _ from h]
      rfl
  | linkage =>
      rw [override, readName, show Linkage.ofText text = _ from h]
      rfl
  | threshold =>
      obtain ⟨number, hread, rfl⟩ := h
      rw [override, readNumber, hread]
      rfl
  | sweep =>
      rw [override, readSweep_of_reads h]
      rfl

/-! ### The last value counts -/

/-- Settings in which one has been set to what a text stands for, or left as it was without one. -/
def Setting.IsSet (setting : Setting) (text? : Option String) (old new : Settings α) : Prop :=
  match text? with
  | none => setting.get new = setting.get old
  | some text => setting.Reads text (setting.get new)

/-- The value that an override gives to a setting. -/
def overrideFor (setting : Setting) (entry : Setting × String) : Option String :=
  if entry.1 = setting then some entry.2 else none

/-- The last value for a setting. -/
def lastOverride? (setting : Setting) (overrides : List (Setting × String)) : Option String :=
  (overrides.filterMap (overrideFor setting)).getLast?

theorem lastOverride?_cons (setting : Setting) (entry : Setting × String)
    (overrides : List (Setting × String)) :
    lastOverride? setting (entry :: overrides) =
      (lastOverride? setting overrides).or (overrideFor setting entry) := by
  unfold lastOverride?
  cases h : overrideFor setting entry with
  | none => rw [List.filterMap_cons_none h, Option.or_none]
  | some text =>
      rw [List.filterMap_cons_some h, List.getLast?_cons]
      cases (overrides.filterMap (overrideFor setting)).getLast? <;> rfl

/-- The switches of two settings are the same. -/
structure SameSwitches (old new : Settings α) : Prop where
  entropyFilter : new.entropyFilter = old.entropyFilter
  malformed : new.malformed = old.malformed
  parallel : new.parallel = old.parallel
  useCache : new.useCache = old.useCache

omit [ScalarText α] in
theorem SameSwitches.trans {s t u : Settings α} (hst : SameSwitches s t) (htu : SameSwitches t u) :
    SameSwitches s u where
  entropyFilter := htu.entropyFilter.trans hst.entropyFilter
  malformed := htu.malformed.trans hst.malformed
  parallel := htu.parallel.trans hst.parallel
  useCache := htu.useCache.trans hst.useCache

omit [ScalarText α] in
theorem sameSwitches_set (s : Settings α) (setting : Setting) (value : setting.Value α) :
    SameSwitches s (setting.set s value) := by
  cases setting <;> exact ⟨rfl, rfl, rfl, rfl⟩

/-- A later value counts; without one the value that has just been set does. -/
theorem Setting.IsSet.of_set {setting : Setting} {entry : Setting × String}
    {found : entry.1.Value α} {text? : Option String} {s changed : Settings α}
    (hfound : entry.1.Reads entry.2 found)
    (h : setting.IsSet text? (entry.1.set s found) changed) :
    setting.IsSet (text?.or (overrideFor setting entry)) s changed := by
  cases text? with
  | some text => exact h
  | none =>
      have hget : setting.get changed = setting.get (entry.1.set s found) := h
      rw [Setting.get_set] at hget
      rw [Option.none_or, overrideFor]
      by_cases heq : setting = entry.1
      · subst heq
        rw [if_pos rfl]
        rw [dif_pos rfl] at hget
        show Setting.Reads _ _ _
        rw [hget]
        exact hfound
      · rw [if_neg (Ne.symm heq)]
        rw [dif_neg heq] at hget
        exact hget

/-- **Of several values for a setting the last one counts**, if all of them can be read. -/
theorem exists_overrideAll (s : Settings α) {overrides : List (Setting × String)}
    (h : ∀ entry ∈ overrides, ∃ found : entry.1.Value α, entry.1.Reads entry.2 found) :
    ∃ changed, overrideAll s overrides = .ok changed ∧ SameSwitches s changed ∧
      ∀ setting : Setting, setting.IsSet (lastOverride? setting overrides) s changed := by
  induction overrides generalizing s with
  | nil => exact ⟨s, rfl, ⟨rfl, rfl, rfl, rfl⟩, fun _ => rfl⟩
  | cons entry overrides ih =>
      obtain ⟨⟨found, hfound⟩, hrest⟩ := List.forall_mem_cons.mp h
      obtain ⟨changed, hall, hswitches, hset⟩ := ih (entry.1.set s found) hrest
      refine ⟨changed, ?_, (sameSwitches_set s entry.1 found).trans hswitches, ?_⟩
      · rw [overrideAll, override_of_reads s hfound]
        exact hall
      · intro setting
        rw [lastOverride?_cons]
        exact (hset setting).of_set hfound

/-! ### Settings that items ask for -/

/-- The value of an item stands for a value of its setting. -/
def Item.IsReadable (α : Type) [ScalarText α] (item : Item) : Prop :=
  ∀ entry, item.override? = some entry → ∃ found : entry.1.Value α, entry.1.Reads entry.2 found

/-- Settings are those of a file with what items ask for on top: each setting with a flag has its
last value, a switch that occurs is turned, and all else is as in the file. -/
structure Configured (fromFile : Settings α) (items : List Item) (settings : Settings α) :
    Prop where
  isSet : ∀ setting : Setting,
    setting.IsSet (Item.lastValue? (.setting setting) items) fromFile settings
  entropyFilter : settings.entropyFilter =
    if .entropyFilter ∈ Item.switchesOf items then true else fromFile.entropyFilter
  malformed : settings.malformed =
    if .strict ∈ Item.switchesOf items then .abort else fromFile.malformed
  parallel : settings.parallel =
    if .sequential ∈ Item.switchesOf items then false else fromFile.parallel
  useCache : settings.useCache =
    if .noCache ∈ Item.switchesOf items then false else fromFile.useCache

theorem Setting.IsSet.unique {setting : Setting} {text? : Option String} {s t u : Settings α}
    (ht : setting.IsSet text? s t) (hu : setting.IsSet text? s u) :
    setting.get t = setting.get u := by
  cases text? with
  | none => exact Eq.trans ht (Eq.symm hu)
  | some text => exact Reads.unique ht hu

/-- There is one way to do what items ask for. -/
theorem Configured.unique {fromFile s t : Settings α} {items : List Item}
    (hs : Configured fromFile items s) (ht : Configured fromFile items t) : s = t := by
  have hget (setting : Setting) : setting.get s = setting.get t :=
    (hs.isSet setting).unique (ht.isSet setting)
  have hkind : s.inputKind = t.inputKind := hget .kind
  have hmetric : s.metric = t.metric := hget .metric
  have hlinkage : s.linkage = t.linkage := hget .linkage
  have hthreshold : s.threshold = t.threshold := hget .threshold
  have hsweep : s.sweep = t.sweep := hget .sweep
  have hentropy := hs.entropyFilter.trans ht.entropyFilter.symm
  have hmalformed := hs.malformed.trans ht.malformed.symm
  have hparallel := hs.parallel.trans ht.parallel.symm
  have hcache := hs.useCache.trans ht.useCache.symm
  cases s
  cases t
  simp_all

theorem lastOverride?_overridesOf (setting : Setting) (items : List Item) :
    lastOverride? setting (Item.overridesOf items) =
      Item.lastValue? (.setting setting) items := by
  have hitem (item : Item) : item.override?.bind (overrideFor setting) =
      item.value? (.setting setting) := by
    cases item with
    | flag typed flag value spelled =>
        cases flag with
        | output => rfl
        | config => rfl
        | setting found => simp [Item.override?, Item.value?, overrideFor]
    | switch typed switch spelled => rfl
    | other text noFlag noSwitch => rfl
  rw [lastOverride?, Item.overridesOf, List.filterMap_filterMap, Item.lastValue?, Item.valuesOf]
  exact congrArg _ (List.filterMap_congr fun item _ => hitem item)

omit [ScalarText α] in
theorem get_withSwitches (s : Settings α) (o : Options) (setting : Setting) :
    setting.get (withSwitches s o) = setting.get s := by
  cases setting <;> rfl

theorem Setting.IsSet.congr {setting : Setting} {text? : Option String} {s t u : Settings α}
    (h : setting.IsSet text? s t) (hget : setting.get u = setting.get t) :
    setting.IsSet text? s u := by
  cases text? with
  | none => exact hget.trans h
  | some text =>
      show setting.Reads text (setting.get u)
      rw [hget]
      exact h

theorem has_add (items : List Item) (switch : Switch) :
    (Options.none.add items).has switch = decide (switch ∈ Item.switchesOf items) := by
  rw [Options.has, Options.add, List.contains_eq_mem]
  rfl

/-- **Settings with the last values and the switches** of items are what the items ask for. -/
theorem configured_withSwitches {fromFile changed : Settings α} {items : List Item}
    (hswitches : SameSwitches fromFile changed)
    (hset : ∀ setting : Setting,
      setting.IsSet (lastOverride? setting (Item.overridesOf items)) fromFile changed) :
    Configured fromFile items (withSwitches changed (Options.none.add items)) where
  isSet setting := by
    rw [← lastOverride?_overridesOf]
    exact (hset setting).congr (get_withSwitches ..)
  entropyFilter := by
    by_cases h : Switch.entropyFilter ∈ Item.switchesOf items <;>
      simp [withSwitches, has_add, hswitches.entropyFilter, h]
  malformed := by
    by_cases h : Switch.strict ∈ Item.switchesOf items <;>
      simp [withSwitches, has_add, hswitches.malformed, h]
  parallel := by
    by_cases h : Switch.sequential ∈ Item.switchesOf items <;>
      simp [withSwitches, has_add, hswitches.parallel, h]
  useCache := by
    by_cases h : Switch.noCache ∈ Item.switchesOf items <;>
      simp [withSwitches, has_add, hswitches.useCache, h]

theorem forall_isReadable_iff {items : List Item} :
    (∀ item ∈ items, item.IsReadable α) ↔
      ∀ entry ∈ Item.overridesOf items,
        ∃ found : entry.1.Value α, entry.1.Reads entry.2 found := by
  constructor
  · intro h entry hentry
    obtain ⟨item, hitem, hoverride⟩ := List.mem_filterMap.mp hentry
    exact h item hitem entry hoverride
  · exact fun h item hitem entry hoverride =>
      h entry (List.mem_filterMap.mpr ⟨item, hitem, hoverride⟩)

/-- **Values that can be read** are put into the settings, with the switches on top. -/
theorem exists_applyOptions_add {items : List Item} (h : ∀ item ∈ items, item.IsReadable α)
    (fromFile : Settings α) :
    ∃ settings, applyOptions fromFile (Options.none.add items) = .ok settings ∧
      Configured fromFile items settings := by
  obtain ⟨changed, hchanged, hswitches, hset⟩ :=
    exists_overrideAll fromFile (forall_isReadable_iff.mp h)
  refine ⟨withSwitches changed (Options.none.add items), ?_,
    configured_withSwitches hswitches hset⟩
  rw [applyOptions, show (Options.none.add items).overrides = Item.overridesOf items from rfl,
    hchanged]
  rfl

/-- **The options that items stand for** give the settings that they ask for. -/
theorem applyOptions_add_eq_ok_iff {fromFile settings : Settings α} {items : List Item}
    (h : ∀ item ∈ items, item.IsReadable α) :
    applyOptions fromFile (Options.none.add items) = .ok settings ↔
      Configured fromFile items settings := by
  obtain ⟨found, hfound, hconfigured⟩ := exists_applyOptions_add h fromFile
  rw [hfound]
  constructor
  · intro heq
    rwa [← Except.ok.inj heq]
  · intro hsettings
    rw [hconfigured.unique hsettings]

/-! ### Arguments in another order -/

/-- The same items in an order in which the values for each flag stand as before. -/
structure Regrouped (items others : List Item) : Prop where
  perm : others.Perm items
  valuesOf_eq : ∀ flag, Item.valuesOf flag others = Item.valuesOf flag items

namespace Regrouped

variable {items others : List Item}

theorem lastValue?_eq (h : Regrouped items others) (flag : ValueFlag) :
    Item.lastValue? flag others = Item.lastValue? flag items :=
  congrArg List.getLast? (h.valuesOf_eq flag)

theorem mem_switchesOf (h : Regrouped items others) (switch : Switch) :
    switch ∈ Item.switchesOf others ↔ switch ∈ Item.switchesOf items :=
  (h.perm.filterMap Item.switch?).mem_iff

/-- **Items in another order** ask for the same settings. -/
theorem configured (h : Regrouped items others) {fromFile settings : Settings α}
    (hs : Configured fromFile items settings) : Configured fromFile others settings where
  isSet setting := by
    rw [h.lastValue?_eq]
    exact hs.isSet setting
  entropyFilter := by simpa only [h.mem_switchesOf] using hs.entropyFilter
  malformed := by simpa only [h.mem_switchesOf] using hs.malformed
  parallel := by simpa only [h.mem_switchesOf] using hs.parallel
  useCache := by simpa only [h.mem_switchesOf] using hs.useCache

/-- **An item can be moved** past items that give no value to its flag. -/
theorem move (before middle after : List Item) {item : Item}
    (h : ∀ flag, item.value? flag = none ∨ Item.valuesOf flag middle = []) :
    Regrouped (before ++ item :: (middle ++ after)) (before ++ (middle ++ item :: after)) where
  perm := List.perm_middle.append_left before
  valuesOf_eq flag := by
    unfold Item.valuesOf at h ⊢
    rw [List.filterMap_append, List.filterMap_append, List.filterMap_append]
    cases hvalue : item.value? flag with
    | none =>
        rw [List.filterMap_cons_none hvalue, List.filterMap_cons_none hvalue,
          List.filterMap_append]
    | some value =>
        have hmiddle : middle.filterMap (Item.value? flag) = [] := by simpa [hvalue] using h flag
        rw [List.filterMap_cons_some hvalue, List.filterMap_cons_some hvalue,
          List.filterMap_append, hmiddle, List.nil_append, List.nil_append]

end Regrouped

end BlockAffinity.CommandLine
