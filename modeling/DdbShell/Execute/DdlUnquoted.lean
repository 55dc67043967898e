import DdbShell.Execute.DdlRoundTrip
import DdbShell.Parser.UnquotedNames

/-!
What SHOW CREATE TABLE prints, from the reader's side. All names are printed in
quotes but those of an INCLUDE projection. Where the printed statement is read
back as the table it was printed of, every INCLUDE projection lists plain words.
-/

namespace DdbShell

open Lexer

/-! ### Descriptions of tables -/

def TableKeySchema.roleNames (ks : TableKeySchema) : List String := ks.hashKeys ++ ks.rangeKeys

def SecondaryIndexSchema.names (index : SecondaryIndexSchema) : List String :=
  index.indexName :: index.keySchema.roleNames

def VectorIndexSchema.names (vi : VectorIndexSchema) : List String :=
  vi.indexName :: vi.vectorAttr :: vi.searchSchema.map (·.attr)

namespace DescribeTableOut

def secondaryIndexes (td : DescribeTableOut) : List SecondaryIndexSchema :=
  td.globalSecondaryIndexes ++ td.localSecondaryIndexes

/-- The names of the table, its attributes and its indexes. -/
def names (td : DescribeTableOut) : List String :=
  td.tableName :: (td.attributeDefinitions.map (·.name) ++ (td.keySchema.roleNames ++
    (td.secondaryIndexes.flatMap (·.names) ++ td.vectorIndexes.flatMap (·.names))))

def keySchemas (td : DescribeTableOut) : List TableKeySchema :=
  td.keySchema :: td.secondaryIndexes.map (·.keySchema)

/-- The capacities and the dimensions. -/
def figures (td : DescribeTableOut) : List Int :=
  td.provisionedReadCapacityUnits :: td.provisionedWriteCapacityUnits ::
    ((td.secondaryIndexes.flatMap fun index =>
        [index.provisionedReadCapacityUnits, index.provisionedWriteCapacityUnits]) ++
      td.vectorIndexes.map (·.dimensions))

/-- The names that the INCLUDE projections list, one list for each. -/
def includes (td : DescribeTableOut) : List (List String) :=
  td.secondaryIndexes.flatMap (·.projection.included) ++
    td.vectorIndexes.flatMap (·.shownProjection.included)

/-- The description of a table that a statement of this shell can create, with
no quotes in its names. -/
structure Creatable (td : DescribeTableOut) : Prop where
  attributes : td.attributeDefinitions ≠ []
  spelled : ∀ name ∈ td.names, Spellable name
  unquoted : ∀ name ∈ td.names, '"' ∉ name.toList
  included : ∀ list ∈ td.includes, ∀ name ∈ list, '"' ∉ name.toList
  keys : ∀ ks ∈ td.keySchemas, ks.hashKeys ≠ []
  figures : ∀ n ∈ td.figures, IsLong n
  stream : ∀ mapped ∈ td.streamViewType, (streamViewTypeNamed mapped).isSome

/-- The statement creates the table that is described: whether it waits and
whether the table may exist is not part of the table. -/
structure Describes (td : DescribeTableOut) (cmd : CreateTableCmd) : Prop where
  table : cmd.tableName = td.tableName
  attributes : cmd.attributeDefinitions = td.attributeDefinitions
  key : cmd.keySchema = td.keySchema.shown
  billing : cmd.billing = td.shownBilling
  gsis : cmd.gsis = td.globalSecondaryIndexes.map (·.shownGsi td.onDemand)
  lsis : cmd.lsis = td.localSecondaryIndexes.map (·.shownLsi)
  vectorIndexes : cmd.vectorIndexes = td.vectorIndexes.map (·.shown)
  stream : cmd.stream = td.shownStream
  tableClass : cmd.tableClass = td.shownTableClass
  deletionProtection : cmd.deletionProtection = td.deletionProtectionEnabled

theorem describes_shown (td : DescribeTableOut) (cmd : ShowCreateTableCmd) :
    td.Describes (td.shown cmd) := ⟨rfl, rfl, rfl, rfl, rfl, rfl, rfl, rfl, rfl, rfl⟩

end DescribeTableOut

/-- A name that stands in its quotes, with none of its own. -/
def Enclosed (name : String) : Prop := Quotable name ∧ '"' ∉ name.toList

/-- A list of names that are read back without quotes. -/
def BareNames (names : List String) : Prop := names ≠ [] ∧ ∀ name ∈ names, Bare name

instance (names : List String) : Decidable (BareNames names) :=
  inferInstanceAs (Decidable (_ ∧ _))

theorem included_shown (p : Projection) : p.shown.included = p.included := by
  obtain ⟨type, names⟩ := p
  cases type <;> rfl

theorem DescribeTableOut.Describes.included {td : DescribeTableOut} {cmd : CreateTableCmd}
    (h : td.Describes cmd) : cmd.included = td.includes := by
  rw [CreateTableCmd.included, h.gsis, h.lsis, h.vectorIndexes, DescribeTableOut.includes,
    DescribeTableOut.secondaryIndexes, List.flatMap_append, List.flatMap_map, List.flatMap_map,
    List.flatMap_map]
  have hgsi : ∀ index : SecondaryIndexSchema,
      (index.shownGsi td.onDemand).projection.included = index.projection.included :=
    fun index => included_shown index.projection
  have hlsi : ∀ index : SecondaryIndexSchema,
      index.shownLsi.projection.included = index.projection.included :=
    fun index => included_shown index.projection
  have hvsi : ∀ vi : VectorIndexSchema,
      vi.shown.projection.included = vi.shownProjection.included :=
    fun vi => included_shown vi.shownProjection
  simp only [hgsi, hlsi, hvsi]

/-- Plain lists print as they are read. -/
theorem printable_of_included {p : Projection} (h : ∀ list ∈ p.included, BareNames list) :
    p.Printable := by
  intro htype
  refine h _ ?_
  rw [Projection.included, if_pos htype]
  exact List.mem_singleton_self _

namespace DescribeTableOut.Creatable

variable {td : DescribeTableOut}

theorem enclosed (h : td.Creatable) {name : String} (hname : name ∈ td.names) : Enclosed name :=
  ⟨(h.spelled name hname).quotable (h.unquoted name hname), h.unquoted name hname⟩

theorem attribute_names (h : td.Creatable) : ∀ d ∈ td.attributeDefinitions, Enclosed d.name := by
  intro d hd
  have hmem : d.name ∈ td.attributeDefinitions.map (·.name) := List.mem_map.mpr ⟨d, hd, rfl⟩
  exact h.enclosed (by simp [names, hmem])

theorem key_names (h : td.Creatable) : ∀ attr ∈ td.keySchema.roleNames, Enclosed attr :=
  fun attr hattr => h.enclosed (by simp [names, hattr])

theorem index_names (h : td.Creatable) : ∀ index ∈ td.secondaryIndexes,
    ∀ name ∈ index.names, Enclosed name := by
  intro index hindex name hname
  have hmem := List.mem_flatMap.mpr ⟨index, hindex, hname⟩
  exact h.enclosed (by simp [names, hmem])

theorem vector_names (h : td.Creatable) : ∀ vi ∈ td.vectorIndexes,
    ∀ name ∈ vi.names, Enclosed name := by
  intro vi hvi name hname
  have hmem := List.mem_flatMap.mpr ⟨vi, hvi, hname⟩
  exact h.enclosed (by simp [names, hmem])

theorem index_figures (h : td.Creatable) : ∀ index ∈ td.secondaryIndexes,
    IsLong index.provisionedReadCapacityUnits ∧ IsLong index.provisionedWriteCapacityUnits := by
  intro index hindex
  have hmem : ∀ n ∈ [index.provisionedReadCapacityUnits, index.provisionedWriteCapacityUnits],
      n ∈ td.secondaryIndexes.flatMap fun index =>
        [index.provisionedReadCapacityUnits, index.provisionedWriteCapacityUnits] :=
    fun n hn => List.mem_flatMap.mpr ⟨index, hindex, hn⟩
  have hfigures : ∀ n ∈ [index.provisionedReadCapacityUnits,
      index.provisionedWriteCapacityUnits], IsLong n := fun n hn =>
    h.figures n (List.mem_cons_of_mem _ (List.mem_cons_of_mem _
      (List.mem_append_left _ (hmem n hn))))
  exact ⟨hfigures _ (by simp), hfigures _ (by simp)⟩

theorem printable (h : td.Creatable) (hplain : ∀ list ∈ td.includes, BareNames list) :
    td.Printable := by
  have hkey : ∀ ks ∈ td.keySchemas, (∀ attr ∈ ks.roleNames, Enclosed attr) → ks.Printable :=
    fun ks hks hattrs => ⟨.inl (h.keys ks hks), fun attr hattr => (hattrs attr hattr).1⟩
  have hindex : ∀ index ∈ td.secondaryIndexes, index.Printable := by
    intro index hindex
    have hnames := h.index_names index hindex
    have hkeySchema : index.keySchema ∈ td.keySchemas :=
      List.mem_cons_of_mem _ (List.mem_map.mpr ⟨index, hindex, rfl⟩)
    have hlists : ∀ list ∈ index.projection.included, BareNames list := fun list hlist =>
      hplain list (List.mem_append_left _ (List.mem_flatMap.mpr ⟨index, hindex, hlist⟩))
    exact {
      name := (hnames _ List.mem_cons_self).1
      key := hkey _ hkeySchema fun attr hattr => hnames attr (List.mem_cons_of_mem _ hattr)
      projection := printable_of_included hlists
      reads := (h.index_figures index hindex).1
      writes := (h.index_figures index hindex).2 }
  have hvector : ∀ vi ∈ td.vectorIndexes, vi.Printable := by
    intro vi hvi
    have hnames := h.vector_names vi hvi
    have hdimensions : vi.dimensions ∈ td.vectorIndexes.map (·.dimensions) :=
      List.mem_map.mpr ⟨vi, hvi, rfl⟩
    have hlists : ∀ list ∈ vi.shownProjection.included, BareNames list := fun list hlist =>
      hplain list (List.mem_append_right _ (List.mem_flatMap.mpr ⟨vi, hvi, hlist⟩))
    exact {
      name := (hnames _ List.mem_cons_self).1
      vector := (hnames vi.vectorAttr (by simp [VectorIndexSchema.names])).1
      dimensions := h.figures _ (by simp only [DescribeTableOut.figures, List.mem_cons,
        List.mem_append, hdimensions, or_true])
      search := fun element helement => (hnames _ (List.mem_cons_of_mem _
        (List.mem_cons_of_mem _ (List.mem_map.mpr ⟨element, helement, rfl⟩)))).1
      projection := printable_of_included hlists }
  exact {
    table := (h.enclosed List.mem_cons_self).1
    attributes := h.attributes
    attributeNames := fun d hd => (h.attribute_names d hd).1
    key := hkey _ List.mem_cons_self h.key_names
    reads := h.figures _ List.mem_cons_self
    writes := h.figures _ (by simp [DescribeTableOut.figures])
    gsis := fun index hgsi => hindex index (List.mem_append_left _ hgsi)
    lsis := fun index hlsi => hindex index (List.mem_append_right _ hlsi)
    vsis := hvector
    stream := h.stream }

end DescribeTableOut.Creatable

/-! ### Texts with lists in them -/

/-- Where the tokens of the text begin with these lists, the lists are plain.
What is in front of the text can be read apart from it. -/
structure ShowsLists (text : List Char) (lists : List (List String)) : Prop where
  listed : BeginsWithLists (lex text) lists → ∀ list ∈ lists, BareNames list
  apart : QuotesApart text
  begins : NoComment text

/-- Words without an INCLUDE among them. -/
def wordsOnly (w : String) : Bool :=
  plain w.toList && (lex w.toList).all fun t => t.kind ≠ .kind .kInclude

theorem wordsOnly_iff {w : String} : wordsOnly w = true ↔
    plain w.toList = true ∧ ∀ t ∈ lex w.toList, t.kind ≠ .kind .kInclude := by
  simp [wordsOnly, List.all_eq_true]

/-- The first character of a word that is no blank is not a comment's. -/
theorem noComment_of_plain {w : List Char} (h : plain w = true) : NoComment w := by
  intro d hd
  have hmem : d ∈ w := (List.dropWhile_suffix _).subset (List.mem_of_head? hd)
  have hchar := List.all_eq_true.mp h d hmem
  constructor <;> rintro rfl <;> exact absurd hchar (by decide)

theorem not_mem_of_plain {w : List Char} (h : plain w = true) {c : Char}
    (hc : (identStart c || gap c) = false) : c ∉ w := by
  intro hmem
  rw [List.all_eq_true.mp h c hmem] at hc
  cases hc

theorem NoComment.append {a b : List Char} (ha : NoComment a) (hb : NoComment b) :
    NoComment (a ++ b) := by
  intro d hd
  rw [List.dropWhile_append] at hd
  split at hd
  · exact hb d hd
  · next hsome =>
      refine ha d ?_
      rwa [List.head?_append_of_ne_nil] at hd
      exact fun hnil => hsome (by rw [hnil]; rfl)

namespace ShowsLists

variable {text : List Char} {lists : List (List String)} {n : Int}

theorem nil : ShowsLists [] [] where
  listed := fun _ _ hlist => by cases hlist
  apart := .nil
  begins := fun _ hd => by cases hd

theorem words (w : String) (hw : wordsOnly w = true) (hends : Ends w.toList text)
    (h : ShowsLists text lists) : ShowsLists (w.toList ++ text) lists := by
  obtain ⟨hplain, hinclude⟩ := wordsOnly_iff.mp hw
  refine ⟨fun hlists => h.listed ?_, ?_, (noComment_of_plain hplain).append h.begins⟩
  · rw [lex_append hplain hends] at hlists
    exact hlists.of_append hinclude
  · exact h.apart.words (not_mem_of_plain hplain (by decide))
      (not_mem_of_plain hplain (by decide))

theorem name {name : String} (hname : Quotable name) (hquote : '"' ∉ name.toList)
    (hparted : Parted text) (h : ShowsLists text lists) :
    ShowsLists (quoteName name ++ text) lists := by
  refine ⟨fun hlists => h.listed ?_, h.apart.quoted hquote h.begins, ?_⟩
  · rw [lex_quoteName hname text hparted] at hlists
    exact hlists.of_cons nofun
  · intro d hd
    cases hd
    decide

/-- A number with the words before it. -/
theorem number (w : String) (hw : wordsOnly w = true)
    (hfront : (w.toList.dropWhile blank).isEmpty = false)
    (hends : Ends w.toList (numeral n ++ text)) (hparted : Parted text)
    (h : ShowsLists text lists) :
    ShowsLists (w.toList ++ (numeral n ++ text)) lists := by
  obtain ⟨hplain, hinclude⟩ := wordsOnly_iff.mp hw
  refine ⟨fun hlists => h.listed ?_, ?_, ?_⟩
  · rw [lex_append hplain hends, lex_numeral n hparted] at hlists
    exact (hlists.of_append hinclude).of_cons nofun
  · exact (h.apart.words (not_mem_numeral n (by decide)) (not_mem_numeral n (by decide))).words
      (not_mem_of_plain hplain (by decide)) (not_mem_of_plain hplain (by decide))
  · intro d hd
    rw [List.dropWhile_append, hfront, if_neg (by simp), List.head?_append_of_ne_nil] at hd
    · exact noComment_of_plain hplain d hd
    · rintro hnil
      rw [hnil] at hfront
      cases hfront

/-- The names of an INCLUDE projection: the tokens tell where the list ends. -/
theorem list {names : List String} (hquote : ∀ name ∈ names, '"' ∉ name.toList)
    (h : ShowsLists text lists) :
    ShowsLists ("PROJECTING INCLUDE (".toList ++
      (commaSeparated (names.map String.toList) ++ (")".toList ++ text))) (names :: lists) := by
  have hwords : lex "PROJECTING INCLUDE (".toList = [keywordToken .kProjecting "PROJECTING",
      keywordToken .kInclude "INCLUDE", punctuation '('] := by decide +kernel
  have hplain : plain "PROJECTING INCLUDE (".toList = true := by decide
  refine ⟨fun hlists => ?_, ?_, ?_⟩
  · rw [lex_append hplain (ends_of_gap rfl), hwords] at hlists
    have hbehind := hlists.of_cons (by decide)
    obtain ⟨ss, c, us, hlex, hnames, -, hrest⟩ := hbehind.first_list rfl
    obtain ⟨hbare, htext⟩ := bare_of_nameList hnames hquote h.apart hlex
    intro list hlist
    rcases List.mem_cons.mp hlist with rfl | hlist
    · refine ⟨?_, hbare⟩
      rintro rfl
      cases hnames
    · exact h.listed (htext ▸ hrest) list hlist
  · exact (h.apart.list hquote).words (by decide) (by decide)
  · intro d hd
    cases hd
    decide

end ShowsLists

/-! ### Parts of the statement -/

/-- A part of a text with these lists in it. -/
def AddsLists (part : List Char) (own : List (List String)) : Prop :=
  ∀ ⦃text lists⦄, Parted text → ShowsLists text lists → ShowsLists (part ++ text) (own ++ lists)

theorem adds_name {name : String} (h : Enclosed name) : AddsLists (quoteName name) [] :=
  fun _ _ hparted htext => htext.name h.1 h.2 hparted

theorem adds_words (w : String) (hw : wordsOnly w = true) : AddsLists w.toList [] :=
  fun _ _ hparted htext => htext.words w hw fun _ _ _ => hparted

theorem adds_commas {α : Type} {part : α → List Char} {own : α → List (List String)}
    {xs : List α} (h : ∀ x ∈ xs, AddsLists (part x) (own x)) :
    AddsLists ((xs.map part).flatMap fun other => ", ".toList ++ other) (xs.flatMap own) := by
  intro text lists hparted htext
  induction xs with
  | nil => exact htext
  | cons x xs ih =>
      have hlater := ih fun y hy => h y (List.mem_cons_of_mem x hy)
      rw [List.map_cons, List.flatMap_cons, List.flatMap_cons, List.append_assoc,
        List.append_assoc, List.append_assoc]
      exact (h x List.mem_cons_self (parted_commas _ hparted) hlater).words ", " (by decide)
        (ends_of_gap rfl)

theorem adds_list {α : Type} {part : α → List Char} {own : α → List (List String)}
    {xs : List α} (h : ∀ x ∈ xs, AddsLists (part x) (own x)) :
    AddsLists (commaSeparated (xs.map part)) (xs.flatMap own) := by
  intro text lists hparted htext
  cases xs with
  | nil => exact htext
  | cons x xs =>
      have hlater := adds_commas (fun y hy => h y (List.mem_cons_of_mem x hy)) hparted htext
      rw [List.map_cons, commaSeparated, List.flatMap_cons, List.append_assoc, List.append_assoc]
      exact h x List.mem_cons_self (parted_commas _ hparted) hlater

/-- A list of names and their like, with nothing of their own. -/
theorem adds_nameList {α : Type} {part : α → List Char} {xs : List α}
    (h : ∀ x ∈ xs, AddsLists (part x) []) : AddsLists (commaSeparated (xs.map part)) [] := by
  have hnone : (xs.flatMap fun _ => ([] : List (List String))) = [] :=
    List.flatMap_eq_nil_iff.mpr fun _ _ => rfl
  exact hnone ▸ adds_list h

theorem adds_keyAttributes {attrs : List String} (h : ∀ attr ∈ attrs, Enclosed attr) :
    AddsLists (keyAttributes attrs) [] := by
  intro text lists hparted htext
  unfold keyAttributes
  split
  · exact adds_name (h _ List.mem_cons_self) hparted htext
  · have hclose : ShowsLists (")".toList ++ text) lists :=
      htext.words ")" (by decide) (ends_of_gap rfl)
    have hnames := adds_nameList (fun attr hattr => adds_name (h attr hattr))
      (parted_of_head rfl) hclose
    rw [List.append_assoc, List.append_assoc]
    exact hnames.words "(" (by decide) (ends_of_gap rfl)

theorem adds_keyDescription {ks : TableKeySchema} (h : ∀ attr ∈ ks.roleNames, Enclosed attr) :
    AddsLists (keyDescription ks) [] := by
  rw [keyDescription_eq]
  refine adds_nameList fun role hrole => ?_
  have hattrs : ∀ attr ∈ role.2, Enclosed attr := by
    obtain ⟨hmem, -⟩ := List.mem_filter.mp hrole
    simp only [List.mem_cons, List.not_mem_nil, or_false] at hmem
    rcases hmem with rfl | rfl
    · exact fun attr hattr => h attr (List.mem_append_left _ hattr)
    · exact fun attr hattr => h attr (List.mem_append_right _ hattr)
  intro text lists hparted htext
  rw [keyRoleText, List.append_assoc]
  split
  · exact adds_keyAttributes hattrs (parted_of_head rfl)
      (htext.words " HASH" (by decide) fun _ _ _ => hparted)
  · exact adds_keyAttributes hattrs (parted_of_head rfl)
      (htext.words " RANGE" (by decide) fun _ _ _ => hparted)

theorem adds_projection {p : Projection}
    (h : ∀ list ∈ p.included, ∀ name ∈ list, '"' ∉ name.toList) :
    AddsLists (projectionDdl p) p.included := by
  obtain ⟨type, names⟩ := p
  cases type with
  | all => exact adds_words "PROJECTING ALL" (by decide)
  | keysOnly => exact adds_words "PROJECTING KEYS ONLY" (by decide)
  | «include» =>
      intro text lists hparted htext
      have hlist := htext.list (h names List.mem_cons_self)
      change ShowsLists (("PROJECTING INCLUDE (".toList ++
        (commaSeparated (names.map String.toList) ++ ")".toList)) ++ text) (names :: lists)
      rw [List.append_assoc, List.append_assoc]
      exact hlist

/-- The capacities of a table or an index. -/
theorem shows_provisioned (rcu wcu : Int) {text : List Char} {lists : List (List String)}
    (h : ShowsLists text lists) : ShowsLists (billingModeProvisioned rcu wcu ++ text) lists := by
  have hclose := h.words " WCU ) " (by decide) (ends_of_gap rfl)
  have hwcu : ShowsLists (" RCU, ".toList ++ (numeral wcu ++ (" WCU ) ".toList ++ text))) lists :=
    hclose.number " RCU, " (by decide) rfl (ends_of_gap rfl) (parted_of_head rfl)
  have hrcu := hwcu.number (n := rcu) "BILLING MODE PROVISIONED ( " (by decide) rfl
    (ends_of_gap rfl) (parted_of_head rfl)
  unfold billingModeProvisioned
  simp only [List.append_assoc]
  exact hrcu

theorem shows_onDemand {text : List Char} {lists : List (List String)}
    (h : ShowsLists text lists) : ShowsLists (billingModeOnDemand ++ text) lists :=
  h.words "BILLING MODE ON DEMAND " (by decide) (ends_of_gap rfl)

/-- An index with its key, up to what it projects. -/
theorem shows_indexKey {index : SecondaryIndexSchema} (h : ∀ name ∈ index.names, Enclosed name)
    {text : List Char} {lists : List (List String)} (htext : ShowsLists text lists) :
    ShowsLists (quoteName index.indexName ++ (" ON ( ".toList ++
      (keyDescription index.keySchema ++ (" ) ".toList ++ text)))) lists := by
  have hclose := htext.words " ) " (by decide) (ends_of_gap rfl)
  have hkey := adds_keyDescription (fun attr hattr => h attr (List.mem_cons_of_mem _ hattr))
    (parted_of_head rfl) hclose
  exact adds_name (h _ List.mem_cons_self) (parted_of_head rfl)
    (hkey.words " ON ( " (by decide) (ends_of_gap rfl))

theorem adds_gsi {index : SecondaryIndexSchema} (hnames : ∀ name ∈ index.names, Enclosed name)
    (hincluded : ∀ list ∈ index.projection.included, ∀ name ∈ list, '"' ∉ name.toList)
    (tableOnDemand : Bool) :
    AddsLists (gsiDdl tableOnDemand index) index.projection.included := by
  intro text lists _ htext
  have hbilling : ShowsLists ((if tableOnDemand then billingModeOnDemand
      else billingModeProvisioned index.provisionedReadCapacityUnits
        index.provisionedWriteCapacityUnits) ++ text) lists := by
    split
    · exact shows_onDemand htext
    · exact shows_provisioned _ _ htext
  have hprojection := adds_projection hincluded (parted_of_head rfl)
    (hbilling.words " " (by decide) (ends_of_gap rfl))
  simpa only [gsiDdl, List.append_assoc] using shows_indexKey hnames hprojection

theorem adds_lsi {index : SecondaryIndexSchema} (hnames : ∀ name ∈ index.names, Enclosed name)
    (hincluded : ∀ list ∈ index.projection.included, ∀ name ∈ list, '"' ∉ name.toList) :
    AddsLists (lsiDdl index) index.projection.included := by
  intro text lists _ htext
  have hprojection := adds_projection hincluded (parted_of_head rfl)
    (htext.words " " (by decide) (ends_of_gap rfl))
  simpa only [lsiDdl, List.append_assoc] using shows_indexKey hnames hprojection

theorem adds_searchSchema {elements : List SearchSchemaElem}
    (h : ∀ element ∈ elements, Enclosed element.attr) :
    AddsLists (searchSchemaDdl elements) [] := by
  intro text lists hparted htext
  unfold searchSchemaDdl
  split
  · exact htext
  · have helements : AddsLists (commaSeparated (elements.map searchElementDdl)) [] := by
      refine adds_nameList fun element helement => ?_
      intro rest lists hrest hshows
      rw [searchElementDdl, List.append_assoc]
      cases element.kind with
      | hash =>
          exact adds_name (h element helement) (parted_of_head rfl)
            (hshows.words " HASH" (by decide) fun _ _ _ => hrest)
      | inlineFilter =>
          exact adds_name (h element helement) (parted_of_head rfl)
            (hshows.words " FILTER" (by decide) fun _ _ _ => hrest)
    have hclose : ShowsLists (" )".toList ++ text) lists :=
      htext.words " )" (by decide) (ends_of_gap rfl)
    rw [List.append_assoc, List.append_assoc]
    exact (helements (parted_of_head rfl) hclose).words " SEARCH KEY ( " (by decide)
      (ends_of_gap rfl)

theorem adds_distance (d : VectorDistance) : AddsLists (vsiDistanceDdl d) [] := by
  cases d with
  | euclidean => exact adds_words "EUCLIDEAN" (by decide)
  | dotProduct => exact adds_words "DOT_PRODUCT" (by decide)
  | cosine => exact adds_words "COSINE" (by decide)

theorem adds_vsi {vi : VectorIndexSchema} (hnames : ∀ name ∈ vi.names, Enclosed name)
    (hincluded : ∀ list ∈ vi.shownProjection.included, ∀ name ∈ list, '"' ∉ name.toList) :
    AddsLists (vsiDdl vi) vi.shownProjection.included := by
  intro text lists hparted htext
  have hsearch : ∀ element ∈ vi.searchSchema, Enclosed element.attr := fun element helement =>
    hnames _ (List.mem_cons_of_mem _ (List.mem_cons_of_mem _
      (List.mem_map.mpr ⟨element, helement, rfl⟩)))
  have hprojection := (adds_projection hincluded hparted htext).words " " (by decide)
    (ends_of_gap rfl)
  have hschema := adds_searchSchema hsearch (parted_of_head rfl) hprojection
  have hbehind : Parted (searchSchemaDdl vi.searchSchema ++
      (" ".toList ++ (projectionDdl vi.shownProjection ++ text))) := by
    unfold searchSchemaDdl
    split <;> exact parted_of_head rfl
  have hdistance := (adds_distance vi.distance hbehind hschema).words " DISTANCE " (by decide)
    (ends_of_gap rfl)
  have hdimensions := hdistance.number (n := vi.dimensions) " DIMENSIONS " (by decide)
    rfl (ends_of_gap rfl) (parted_of_head rfl)
  have hvector := adds_name (hnames vi.vectorAttr (by simp [VectorIndexSchema.names]))
    (parted_of_head rfl) hdimensions
  have hindex := adds_name (hnames vi.indexName List.mem_cons_self) (parted_of_head rfl)
    (hvector.words " ON " (by decide) (ends_of_gap rfl))
  simpa only [vsiDdl, List.append_assoc, List.nil_append] using hindex

/-- The indexes of one kind, with the lists of all of them. -/
theorem shows_indexes {α : Type} {part : α → List Char} {own : α → List (List String)}
    (opening : String) (hopening : wordsOnly opening = true)
    (hgap : (opening.toList.getLast?.all fun c => !identStart c) = true) {indexes : List α}
    (h : ∀ index ∈ indexes, AddsLists (part index) (own index)) {text : List Char}
    {lists : List (List String)} (htext : ShowsLists text lists) :
    ShowsLists (indexClause opening (indexes.map part) ++ text)
      (indexes.flatMap own ++ lists) := by
  unfold indexClause
  cases indexes with
  | nil => exact htext
  | cons index others =>
      have hclose := htext.words ") " (by decide) (ends_of_gap rfl)
      have hlist := adds_list h (parted_of_head rfl) hclose
      rw [if_neg (by simp), List.append_assoc, List.append_assoc]
      exact hlist.words opening hopening (ends_of_gap hgap)

/-! ### The whole statement -/

theorem adds_streamView {mapped : String} (h : (streamViewTypeNamed mapped).isSome) :
    AddsLists (streamViewWords mapped) [] := by
  unfold streamViewTypeNamed at h
  unfold streamViewWords
  split
  · exact adds_words "NEW IMAGE" (by decide)
  · split
    · exact adds_words "OLD IMAGE" (by decide)
    · split
      · exact adds_words "KEYS ONLY" (by decide)
      · split
        · exact adds_words "BOTH IMAGES" (by decide)
        · simp_all

theorem adds_attribute {d : AttributeDef} (h : Enclosed d.name) :
    AddsLists (attributeDdl d) [] := by
  intro text lists hparted htext
  rw [attributeDdl, List.append_assoc]
  cases d.type with
  | s =>
      exact adds_name h (parted_of_head rfl)
        (htext.words " string" (by decide) fun _ _ _ => hparted)
  | n =>
      exact adds_name h (parted_of_head rfl)
        (htext.words " number" (by decide) fun _ _ _ => hparted)
  | b =>
      exact adds_name h (parted_of_head rfl)
        (htext.words " binary" (by decide) fun _ _ _ => hparted)

section Settings

variable {text : List Char} {lists : List (List String)}

/-- Words that are there or not. -/
theorem shows_flag (on : Bool) (w : String) (hw : wordsOnly w = true)
    (hgap : (w.toList.getLast?.all fun c => !identStart c) = true) (h : ShowsLists text lists) :
    ShowsLists ((if on then w.toList else []) ++ text) lists := by
  cases on with
  | true => exact h.words w hw (ends_of_gap hgap)
  | false => exact h

theorem shows_billing (td : DescribeTableOut) (h : ShowsLists text lists) :
    ShowsLists (billingDdl td ++ text) lists := by
  have hprovisioned := shows_provisioned td.provisionedReadCapacityUnits
    td.provisionedWriteCapacityUnits h
  unfold billingDdl
  split
  · split
    · exact hprovisioned
    · split
      · exact shows_onDemand h
      · exact h
  · split
    · exact hprovisioned
    · exact h

theorem shows_stream {td : DescribeTableOut}
    (hstream : ∀ mapped ∈ td.streamViewType, (streamViewTypeNamed mapped).isSome)
    (h : ShowsLists text lists) : ShowsLists (streamDdl td ++ text) lists := by
  unfold streamDdl
  split
  · split
    · next mapped hmapped =>
        rw [List.append_assoc, List.append_assoc]
        have hclose := h.words " ) " (by decide) (ends_of_gap rfl)
        exact (adds_streamView (hstream mapped hmapped) (parted_of_head rfl) hclose).words
          "STREAM ( " (by decide) (ends_of_gap rfl)
    · exact h.words "STREAM DISABLED " (by decide) (ends_of_gap rfl)
  · exact h

theorem shows_tableClass (td : DescribeTableOut) (h : ShowsLists text lists) :
    ShowsLists (tableClassDdl td ++ text) lists := by
  unfold tableClassDdl
  split
  · exact h.words "TABLE CLASS STANDARD INFREQUENT ACCESS " (by decide) (ends_of_gap rfl)
  · exact h.words "TABLE CLASS STANDARD " (by decide) (ends_of_gap rfl)

theorem shows_deletionProtection (td : DescribeTableOut) :
    ShowsLists (deletionProtectionDdl td) [] := by
  have hend : Parted [] := fun _ hd => by cases hd
  unfold deletionProtectionDdl
  split
  · have hwords := adds_words "DELETION PROTECTION ENABLED" (by decide) hend .nil
    rwa [List.append_nil] at hwords
  · have hwords := adds_words "DELETION PROTECTION DISABLED" (by decide) hend .nil
    rwa [List.append_nil] at hwords

end Settings

theorem shows_reconstructDdl {td : DescribeTableOut} (h : td.Creatable)
    (cmd : ShowCreateTableCmd) : ShowsLists (reconstructDdl cmd td) td.includes := by
  have hincluded : ∀ index ∈ td.secondaryIndexes, ∀ list ∈ index.projection.included,
      ∀ name ∈ list, '"' ∉ name.toList := fun index hindex list hlist =>
    h.included list (List.mem_append_left _ (List.mem_flatMap.mpr ⟨index, hindex, hlist⟩))
  have hgsi : ∀ index ∈ td.globalSecondaryIndexes,
      AddsLists (gsiDdl td.onDemand index) index.projection.included := fun index hindex =>
    have hmem := List.mem_append_left _ hindex
    adds_gsi (h.index_names index hmem) (hincluded index hmem) td.onDemand
  have hlsi : ∀ index ∈ td.localSecondaryIndexes,
      AddsLists (lsiDdl index) index.projection.included := fun index hindex =>
    have hmem := List.mem_append_right _ hindex
    adds_lsi (h.index_names index hmem) (hincluded index hmem)
  have hvsi : ∀ vi ∈ td.vectorIndexes, AddsLists (vsiDdl vi) vi.shownProjection.included :=
    fun vi hvi => adds_vsi (h.vector_names vi hvi) fun list hlist =>
      h.included list (List.mem_append_right _ (List.mem_flatMap.mpr ⟨vi, hvi, hlist⟩))
  have hsettings := shows_stream h.stream (shows_tableClass td (shows_deletionProtection td))
  have hindexes := shows_indexes "GSI (" (by decide) rfl hgsi
    (shows_indexes "LSI (" (by decide) rfl hlsi
      (shows_indexes "VSI (" (by decide) rfl hvsi hsettings))
  have hbilling := (shows_billing td hindexes).words ") " (by decide) (ends_of_gap rfl)
  have hkey := (adds_keyDescription h.key_names (parted_of_head rfl) hbilling).words
    ") PRIMARY KEY (" (by decide) (ends_of_gap rfl)
  have hattributes := adds_nameList (fun d hd => adds_attribute (h.attribute_names d hd))
    (parted_of_head rfl) hkey
  have hname := adds_name (h.enclosed List.mem_cons_self) (parted_of_head rfl)
    (hattributes.words " (" (by decide) (ends_of_gap rfl))
  have hlists : td.includes = td.globalSecondaryIndexes.flatMap (·.projection.included) ++
      (td.localSecondaryIndexes.flatMap (·.projection.included) ++
        (td.vectorIndexes.flatMap (·.shownProjection.included) ++ [])) := by
    rw [DescribeTableOut.includes, DescribeTableOut.secondaryIndexes, List.flatMap_append,
      List.append_nil, List.append_assoc]
  rw [hlists]
  unfold reconstructDdl
  have hnowait := shows_flag cmd.nowait "NOWAIT " (by decide) rfl hname
  exact (shows_flag cmd.ifNotExists "IF NOT EXISTS " (by decide) rfl hnowait).words
    "CREATE TABLE " (by decide) (ends_of_gap rfl)

/-- A text that is read back as the table has no list that is not plain. -/
theorem bareNames_of_roundTrip {td : DescribeTableOut} (h : td.Creatable)
    {cmd : ShowCreateTableCmd} {created : CreateTableCmd}
    (hparses : ParsesTo (reconstructDdl cmd td)
      [some ⟨.explainable (.createTable created), false⟩])
    (hdescribes : td.Describes created) : ∀ list ∈ td.includes, BareNames list := by
  have hcreate : ∀ t ∈ (lex (reconstructDdl cmd td)).head?, t.kind = .kind .kCreate := by
    obtain ⟨others, hlex⟩ := lex_reconstructDdl cmd td
    rw [hlex]
    rintro t ht
    cases ht
    rfl
  have hlists := beginsWithLists_of_parsesTo hparses hcreate
  rw [hdescribes.included] at hlists
  exact (shows_reconstructDdl h cmd).listed hlists

theorem booksTable_creatable : booksTable.Creatable where
  attributes := List.cons_ne_nil _ _
  spelled := fun name hname =>
    have hquotable : ∀ name ∈ booksTable.names, Quotable name := by decide +kernel
    (hquotable name hname).spellable
  unquoted := by decide +kernel
  included := by decide +kernel
  keys := by decide +kernel
  figures := by decide +kernel
  stream := by decide +kernel

/-- The books with an index that projects an attribute of several words. -/
def datedBooksTable : DescribeTableOut :=
  { booksTable with
    globalSecondaryIndexes := [
      { indexName := "by author", keySchema := ⟨["author"], ["isbn"]⟩,
        projection := ⟨.include, ["title", "year of issue"]⟩ }] }

end DdbShell
