import BlockAffinity.Proofs.Distribution.Normal
import BlockAffinity.Proofs.Ingest.Listing
import BlockAffinity.Proofs.Number.RationalText
import BlockAffinity.Report.Tables

/-!
# BlockAffinity.Proofs.Ingest.EntropyTable

**The table of entropies is a table of probabilities.** Its first four columns are those of weighted
observations and its rows are the listing of the profiles (`exists_table_of_isListable`), so reading
it gives every probability back. What the profiles of these rows are is then a matter of
`profilesOfWeights_listing`: doubles are divided by a total that may miss one, exact numbers by one.
-/

namespace BlockAffinity

open Scalar

variable {α : Type}

/-! ### Entries and their rows -/

/-- An entry without its contribution to the entropy. -/
def Entropy.Entry.row (e : Entropy.Entry α) : Ingest.Weighted α :=
  ⟨⟨e.block, e.role, e.token⟩, e.probability⟩

/-- **The entries of the profiles** are their listing. -/
theorem map_row_entries [Scalar α] (profiles : Profiles α) :
    (Entropy.entries profiles).map Entropy.Entry.row = Ingest.listing profiles := by
  have hblock (block : BlockId) (profile : Profile α) :
      (Entropy.entriesOf block profile).map Entropy.Entry.row =
        Ingest.listingOfBlock block profile := by
    have hrows (role : Role) :
        ((profile.get role).entries.map fun entry =>
            Entropy.Entry.mk block role entry.1 entry.2 (Entropy.ofProbability entry.2)).map
          Entropy.Entry.row = Ingest.listingOfRole block role (profile.get role) := by
      rw [List.map_map]
      rfl
    rw [Entropy.entriesOf, Profile.groups, List.flatMap_map, List.map_flatMap]
    refine (List.flatMap_congr fun role _ => hrows role).trans
      (flatMap_filter_of_nil fun role _ hrole => ?_)
    rw [Bool.not_eq_false', TokenMap.isEmpty, List.isEmpty_iff] at hrole
    rw [Ingest.listingOfRole, hrole, List.map_nil]
  rw [Entropy.entries, List.map_flatMap]
  exact List.flatMap_congr fun entry _ => hblock entry.1 entry.2

/-- Profiles that a table can hold as they are: blocks and tokens are trimmed, something was observed
in each block, and probabilities are positive and at most one. -/
structure Profiles.IsListable [Scalar α] (profiles : Profiles α) : Prop where
  block : ∀ id ∈ profiles.ids, Text.IsTrimmed id.text
  observed : ∀ profile ∈ profiles.values, Profile.isEmpty profile = false
  entry : ∀ profile ∈ profiles.values, ∀ role d, Profile.get? profile role = some d →
    ∀ token p, (token, p) ∈ d.entries →
      Text.IsTrimmed token ∧ lt zero p = true ∧ le p one = true

/-- A number that is read from its own text. -/
def ScalarText.IsReadBack [ScalarText α] (p : α) : Prop :=
  ScalarText.read (Text.trim (ScalarText.write p)) = .ok p

theorem isReadBack_double {p : Float} (h : ScalarText.read (ScalarText.write p) = .ok p) :
    ScalarText.IsReadBack p := by
  have htrim : Text.trim (ScalarText.write p) = ScalarText.write p :=
    (Decimal.isSolid_write p).trim_eq
  rw [ScalarText.IsReadBack, htrim, h]

theorem isReadBack_rational (q : ℚ) : ScalarText.IsReadBack q := by
  have htrim : Text.trim (ScalarText.write q) = ScalarText.write q :=
    (Fraction.isSolid_write q).trim_eq
  rw [ScalarText.IsReadBack, htrim]
  exact Fraction.read_write q

namespace Ingest

/-- **Listable profiles** are those with a row for each block, whose rows have trimmed texts and
weights above zero up to one. -/
theorem isListable_iff [Scalar α] {profiles : Profiles α} : profiles.IsListable ↔
    (∀ profile ∈ profiles.values, Profile.isEmpty profile = false) ∧
      ∀ row ∈ listing profiles, row.observation.IsTrimmed ∧ lt zero row.weight = true ∧
        le row.weight one = true := by
  constructor
  · intro h
    refine ⟨h.observed, fun row hrow => ?_⟩
    obtain ⟨profile, hprofile, hweight⟩ := mem_listing_iff.mp hrow
    have hentry := TokenMap.mem_entries_iff.mpr hweight
    have hstored := Profile.get?_eq_some_iff.mpr
      ⟨rfl, List.isEmpty_eq_false_iff.mpr (List.ne_nil_of_mem hentry)⟩
    obtain ⟨htoken, hprobability⟩ := h.entry profile (Roster.mem_values_iff.mpr ⟨_, hprofile⟩) _ _
      hstored _ _ hentry
    exact ⟨⟨h.block _ (Roster.mem_ids_iff.mpr ⟨_, hprofile⟩), htoken⟩, hprobability⟩
  · rintro ⟨hobserved, hrows⟩
    refine ⟨fun id hid => ?_, hobserved, fun profile hprofile role d hd token p hentry => ?_⟩
    · obtain ⟨profile, hprofile⟩ := Roster.mem_ids_iff.mp hid
      obtain ⟨role, hrole⟩ := Profile.isEmpty_eq_false_iff.mp
        (hobserved profile (Roster.mem_values_iff.mpr ⟨id, hprofile⟩))
      obtain ⟨entry, hentry⟩ := List.isEmpty_eq_false_iff_exists_mem.mp hrole
      exact (hrows ⟨⟨id, role, entry.1⟩, entry.2⟩ (mem_listing_iff.mpr
        ⟨profile, hprofile, TokenMap.mem_entries_iff.mp hentry⟩)).1.1
    · obtain ⟨rfl, -⟩ := Profile.get?_eq_some_iff.mp hd
      obtain ⟨id, hprofile⟩ := Roster.mem_values_iff.mp hprofile
      obtain ⟨htrimmed, hprobability⟩ := hrows ⟨⟨id, role, token⟩, p⟩ (mem_listing_iff.mpr
        ⟨profile, hprofile, TokenMap.mem_entries_iff.mp hentry⟩)
      exact ⟨htrimmed.2, hprobability⟩

instance [Scalar α] (profiles : Profiles α) : Decidable profiles.IsListable :=
  decidable_of_iff _ isListable_iff.symm

/-! ### The table is read back -/

/-- The columns behind those of an observation. -/
def entropyColumns : List String := [probabilityColumn, "Entropy"]

variable [Scalar α] [ScalarText α]

/-- The fields of the row of an entry. -/
def entropyFields (e : Entropy.Entry α) : List String :=
  observationFields e.row.observation ++
    [ScalarText.write e.probability, ScalarText.write e.entropy]

omit [Scalar α] in
theorem readTable_entropy {entries : List (Entropy.Entry α)}
    (h : ∀ e ∈ entries, e.row.observation.IsTrimmed) :
    ∃ records, Csv.readTable (Tables.entropy entries) =
        .ok ⟨observationHeader ++ entropyColumns, records⟩ ∧
      records.map Csv.Row.fields = entries.map entropyFields := by
  refine Csv.readTable_writeRows (fun fields hfields => ?_) (head?_writeRows _ _)
  rcases List.mem_cons.mp hfields with rfl | hfields
  · exact all_isBlank_of_isTrimmed (by decide +kernel) _
  · obtain ⟨e, he, rfl⟩ := List.mem_map.mp hfields
    exact all_isBlank_of_isTrimmed (h e he).1 _

theorem checkWeight_of_isReadBack {p : α} (hread : ScalarText.IsReadBack p)
    (hfinite : isFinite p = true) (hnonneg : lt p zero = false) (line : Nat) :
    checkWeight line (some (ScalarText.write p)) = .ok p := by
  rw [checkWeight, Option.getD_some, hread]
  dsimp only
  rw [hfinite, hnonneg]
  rfl

/-- **The rows of the table** are accepted as they are, whatever the policy. -/
theorem weightedRows_of_entropyFields {entries : List (Entropy.Entry α)} {records : List Csv.Row}
    (hrecords : records.map Csv.Row.fields = entries.map entropyFields)
    (htrimmed : ∀ e ∈ entries, e.row.observation.IsTrimmed)
    (hread : ∀ e ∈ entries, ScalarText.IsReadBack e.probability)
    (hnumber : ∀ e ∈ entries, isFinite e.probability = true ∧ lt e.probability zero = false)
    (policy : Policy) :
    weightedRows ⟨observationHeader ++ entropyColumns, records⟩ policy =
      .ok ⟨entries.map Entropy.Entry.row, 0⟩ := by
  have hcolumn : requireColumn (α := α) ⟨observationHeader ++ entropyColumns, records⟩
      probabilityColumn = .ok 3 := by
    have hindex : (observationHeader ++ entropyColumns).findIdx?
        (Csv.namesColumn probabilityColumn) = some 3 := by decide +kernel
    rw [requireColumn, Csv.Table.column?, hindex]
  rw [weightedRows, hcolumn, occurrenceRows_of_columns]
  dsimp only [bind, Except.bind]
  rw [List.zip_map']
  refine acceptRows_eq_ok ?_ policy
  rw [List.forall₂_map_left_iff, List.forall₂_map_right_iff]
  refine forall₂_of_fields hrecords fun e he row hrow => ?_
  have hweight : row.field? (some 3) = some (ScalarText.write e.probability) := by
    simp [Csv.Row.field?, hrow, entropyFields, observationFields]
  rw [hweight, rawRow_of_fields hrow, checkWeighted,
    check_of_isTrimmed (htrimmed e he)]
  dsimp only [bind, Except.bind]
  rw [checkWeight_of_isReadBack (hread e he) (hnumber e he).1 (hnumber e he).2]
  rfl

/-- **The table of entropies is read as the listing** of the profiles. -/
theorem exists_table_of_isListable {profiles : Profiles α} (h : profiles.IsListable)
    (hread : ∀ row ∈ listing profiles, ScalarText.IsReadBack row.weight)
    (hnumber : ∀ row ∈ listing profiles, isFinite row.weight = true ∧ lt row.weight zero = false) :
    ∃ table, Csv.readTable (Tables.entropy (Entropy.entries profiles)) = .ok table ∧
      ∀ policy, weightedRows table policy = .ok ⟨listing profiles, 0⟩ := by
  have hmem {e : Entropy.Entry α} (he : e ∈ Entropy.entries profiles) : e.row ∈ listing profiles := by
    rw [← map_row_entries]
    exact List.mem_map_of_mem he
  have htrimmed : ∀ e ∈ Entropy.entries profiles, e.row.observation.IsTrimmed := fun e he =>
    ((isListable_iff.mp h).2 _ (hmem he)).1
  obtain ⟨records, htable, hrecords⟩ := readTable_entropy htrimmed
  refine ⟨_, htable, fun policy => ?_⟩
  have hrows := weightedRows_of_entropyFields hrecords htrimmed (fun e he => hread e.row (hmem he))
    (fun e he => hnumber e.row (hmem he)) policy
  rwa [map_row_entries] at hrows

/-! ### The profiles of the rows -/

/-- **Doubles keep the tokens** of each role when they are divided by their total. -/
theorem tokens_divided {profiles : Profiles Float} (h : profiles.IsListable) {id : BlockId}
    {profile : Profile Float} (hprofile : profiles.get? id = some profile) (role : Role) :
    ((profile.map fun d => Distribution.ofWeights d.entries).get role).tokens =
      (profile.get role).tokens := by
  have hprobability {p : Float} (hp : p ∈ (profile.get role).values) :
      lt zero p = true ∧ le p one = true := by
    obtain ⟨token, htoken⟩ := TokenMap.mem_values_iff.mp hp
    have hrow : ⟨⟨id, role, token⟩, p⟩ ∈ listing profiles :=
      mem_listing_iff.mpr ⟨profile, hprofile, htoken⟩
    exact ((isListable_iff.mp h).2 _ hrow).2
  rw [PerRole.get_map]
  exact Distribution.tokens_ofWeights_entries
    (fun p hp => Double.inRange_of_lt_of_le (hprobability hp).1 (hprobability hp).2)
    fun p hp => (hprobability hp).1

/-- No block of doubles is dropped, and none is moved. -/
theorem get?_profilesOfWeights_listing {profiles : Profiles Float} (h : profiles.IsListable) :
    (profilesOfWeights (listing profiles)).ids = profiles.ids ∧
      ∀ id profile, profiles.get? id = some profile →
        (profilesOfWeights (listing profiles)).get? id =
          some (profile.map fun d => Distribution.ofWeights d.entries) := by
  have hobserved {id : BlockId} {profile : Profile Float} (hprofile : profiles.get? id = some profile) :
      Profile.isEmpty (profile.map fun d => Distribution.ofWeights d.entries) = false := by
    rw [Profile.isEmpty_congr (tokens_divided h hprofile)]
    exact h.observed profile (Roster.mem_values_iff.mpr ⟨id, hprofile⟩)
  rw [profilesOfWeights_listing h.observed]
  refine ⟨Roster.ids_filterMap_of_forall fun id profile hprofile => ?_, fun id profile hprofile => ?_⟩
  · dsimp only
    rw [hobserved hprofile]
    rfl
  · rw [Roster.get?_filterMap, hprofile, Option.bind_some]
    dsimp only
    rw [hobserved hprofile]
    rfl

/-- **Exact numbers with a total of one** come back as they were listed. -/
theorem profilesOfWeights_listing_of_total {K : Type} [ExactField K] {profiles : Profiles K}
    (h : profiles.IsListable)
    (htotal : ∀ profile ∈ profiles.values, ∀ role d, Profile.get? profile role = some d → d.total = 1) :
    profilesOfWeights (listing profiles) = profiles := by
  rw [profilesOfWeights_listing h.observed]
  refine Roster.filterMap_eq_self fun id profile hprofile => ?_
  have hmem : profile ∈ profiles.values := Roster.mem_values_iff.mpr ⟨id, hprofile⟩
  have hnormal (role : Role) : (profile.get role).IsNormal := by
    have hrow {token : Token} {p : K} (hentry : (token, p) ∈ (profile.get role).entries) :=
      (isListable_iff.mp h).2 ⟨⟨id, role, token⟩, p⟩
        (mem_listing_iff.mpr ⟨profile, hprofile, TokenMap.mem_entries_iff.mp hentry⟩)
    refine ⟨fun token htoken => ?_, fun p hp => ?_, fun hempty => ?_⟩
    · obtain ⟨entry, hentry, rfl⟩ := List.mem_map.mp htoken
      exact (hrow hentry).1.2
    · obtain ⟨entry, hentry, rfl⟩ := List.mem_map.mp hp
      exact of_decide_eq_true (hrow hentry).2.1
    · exact htotal profile hmem role _ (Profile.get?_eq_some_iff.mpr ⟨rfl, hempty⟩)
  have hself : (profile.map fun d => Distribution.ofWeights d.entries) = profile :=
    PerRole.ext_get fun role => by rw [PerRole.get_map, Distribution.ofWeights_entries (hnormal role)]
  dsimp only
  rw [hself, h.observed profile hmem]
  rfl

/-- **The table of entropies is a faithful table of probabilities.** Profiles of doubles whose texts
are trimmed, with something observed in each block and probabilities above zero up to one, are read
back row by row under both policies, provided that each double is read from its own text; the profiles
of the rows have the same blocks in the same order with the same roles and tokens. Exact numbers are
read back in the same way, and with totals of one the profiles of the rows are the same. In both cases
the rows are one for each block, role and token that is listed, with its probability. -/
theorem entropyTable_faithful :
    (∀ profiles : Profiles Float, profiles.IsListable →
      (∀ row ∈ listing profiles,
        ScalarText.read (ScalarText.write row.weight) = .ok row.weight) →
      (∃ table, Csv.readTable (Tables.entropy (Entropy.entries profiles)) = .ok table ∧
        ∀ policy, weightedRows table policy = .ok ⟨listing profiles, 0⟩) ∧
      (profilesOfWeights (listing profiles)).ids = profiles.ids ∧
      ∀ id profile, profiles.get? id = some profile →
        ∃ regrouped : Profile Float, (profilesOfWeights (listing profiles)).get? id = some regrouped ∧
          Profile.roles regrouped = Profile.roles profile ∧
          ∀ role, (regrouped.get role).tokens = (profile.get role).tokens) ∧
    (∀ (K : Type) [ExactField K] [ScalarText K] (profiles : Profiles K), profiles.IsListable →
      (∀ row ∈ listing profiles, ScalarText.IsReadBack row.weight) →
      (∀ profile ∈ profiles.values, ∀ role d, Profile.get? profile role = some d → d.total = 1) →
      (∃ table, Csv.readTable (Tables.entropy (Entropy.entries profiles)) = .ok table ∧
        ∀ policy, weightedRows table policy = .ok ⟨listing profiles, 0⟩) ∧
      profilesOfWeights (listing profiles) = profiles) ∧
    ∀ (α : Type) (profiles : Profiles α),
      ((listing profiles).map Weighted.observation).Nodup ∧
      ∀ row, row ∈ listing profiles ↔
        ∃ profile, profiles.get? row.observation.block = some profile ∧
          (profile.get row.observation.role).get? row.observation.token = some row.weight := by
  refine ⟨fun profiles h hread =>
      ⟨?_, (get?_profilesOfWeights_listing h).1, fun id profile hprofile => ?_⟩,
    fun K _ _ profiles h hread htotal => ⟨?_, profilesOfWeights_listing_of_total h htotal⟩,
    fun α profiles => ⟨nodup_listing profiles, fun row => mem_listing_iff⟩⟩
  · refine exists_table_of_isListable h (fun row hrow => isReadBack_double (hread row hrow))
      fun row hrow => ?_
    obtain ⟨-, hpositive, hle⟩ := (isListable_iff.mp h).2 row hrow
    have hrange := Double.inRange_of_lt_of_le hpositive hle
    exact ⟨hrange.finite, hrange.lt_zero⟩
  · exact ⟨_, (get?_profilesOfWeights_listing h).2 id profile hprofile,
      Profile.roles_congr (tokens_divided h hprofile), tokens_divided h hprofile⟩
  · refine exists_table_of_isListable h hread fun row hrow => ⟨rfl, ?_⟩
    obtain ⟨-, hpositive, -⟩ := (isListable_iff.mp h).2 row hrow
    exact OrderedScalar.lt_asymm hpositive

/-- A block and a token that have to be quoted, doubles that add up to less than one, and thirds as
exact numbers. -/
theorem entropyTable_faithful_quoted :
    let doubles : Profiles Float := .ofList
      [(⟨"a, b"⟩, ⟨.ofList [("mov", 0.25), ("\"m\"", 0.75)], .empty, .ofList [("eax", 1)]⟩),
        (⟨"c"⟩, ⟨.empty, .ofList [("x", 0.5), ("y", 0.1)], .empty⟩)]
    let thirds : Profiles ℚ := .ofList
      [(⟨"a, b"⟩, ⟨.ofList [("mov", 1 / 3), ("\"m\"", 2 / 3)], .empty, .empty⟩)]
    (∃ table, Csv.readTable (Tables.entropy (Entropy.entries doubles)) = .ok table ∧
        ∀ policy, weightedRows table policy = .ok ⟨listing doubles, 0⟩) ∧
      (listing doubles).length = 5 ∧
      (profilesOfWeights (listing doubles)).ids = [⟨"a, b"⟩, ⟨"c"⟩] ∧
      (∃ table, Csv.readTable (Tables.entropy (Entropy.entries thirds)) = .ok table ∧
        ∀ policy, weightedRows table policy = .ok ⟨listing thirds, 0⟩) ∧
      profilesOfWeights (listing thirds) = thirds := by
  intro doubles thirds
  have hdoubles : doubles.IsListable := by decide +kernel
  have hread : ∀ row ∈ listing doubles,
      (ScalarText.read (ScalarText.write row.weight) : Except Decimal.NumeralFault Float) =
        .ok row.weight := by decide +kernel
  have hthirds : thirds.IsListable := by decide +kernel
  have htotals : ∀ profile ∈ thirds.values, ∀ role ∈ Role.all,
      (profile.get role).isEmpty = false → (profile.get role).total = 1 := by decide +kernel
  obtain ⟨htable, hids, -⟩ := entropyTable_faithful.1 doubles hdoubles hread
  obtain ⟨htable', hsame⟩ := entropyTable_faithful.2.1 ℚ thirds hthirds
    (fun row _ => isReadBack_rational row.weight) fun profile hprofile role d hd => by
      obtain ⟨rfl, hempty⟩ := Profile.get?_eq_some_iff.mp hd
      exact htotals profile hprofile role (Role.mem_all role) hempty
  exact ⟨htable, by decide +kernel, hids.trans (by decide +kernel), htable', hsame⟩

end Ingest

end BlockAffinity
