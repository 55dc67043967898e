import DdbShell.Execute.ShowCreateTable

/-!
SHOW CREATE TABLE is read back. The text of a table whose names can stand
between quotes is one CREATE TABLE statement, with the keys, the capacities,
the indexes and the settings of the table. The names of an INCLUDE projection
stand without quotes, so they have to be plain words.
-/

namespace DdbShell

/-! ### What can be printed -/

/-- The range of a `long long`. -/
def IsLong (n : Int) : Prop := longMin ≤ n ∧ n ≤ longMax

instance (n : Int) : Decidable (IsLong n) := inferInstanceAs (Decidable (_ ∧ _))

structure TableKeySchema.Printable (ks : TableKeySchema) : Prop where
  some : ks.hashKeys ≠ [] ∨ ks.rangeKeys ≠ []
  names : ∀ attr ∈ ks.hashKeys ++ ks.rangeKeys, Quotable attr

instance (ks : TableKeySchema) : Decidable ks.Printable :=
  decidable_of_iff ((ks.hashKeys ≠ [] ∨ ks.rangeKeys ≠ []) ∧
      ∀ attr ∈ ks.hashKeys ++ ks.rangeKeys, Quotable attr)
    ⟨fun h => ⟨h.1, h.2⟩, fun h => ⟨h.some, h.names⟩⟩

def Projection.Printable (p : Projection) : Prop :=
  p.type = .include → p.nonKeyAttributes ≠ [] ∧ ∀ name ∈ p.nonKeyAttributes, Bare name

instance (p : Projection) : Decidable p.Printable := inferInstanceAs (Decidable (_ → _))

structure SecondaryIndexSchema.Printable (index : SecondaryIndexSchema) : Prop where
  name : Quotable index.indexName
  key : index.keySchema.Printable
  projection : index.projection.Printable
  reads : IsLong index.provisionedReadCapacityUnits
  writes : IsLong index.provisionedWriteCapacityUnits

instance (index : SecondaryIndexSchema) : Decidable index.Printable :=
  decidable_of_iff (Quotable index.indexName ∧ index.keySchema.Printable ∧
      index.projection.Printable ∧ IsLong index.provisionedReadCapacityUnits ∧
      IsLong index.provisionedWriteCapacityUnits)
    ⟨fun h => ⟨h.1, h.2.1, h.2.2.1, h.2.2.2.1, h.2.2.2.2⟩,
      fun h => ⟨h.name, h.key, h.projection, h.reads, h.writes⟩⟩

structure VectorIndexSchema.Printable (vi : VectorIndexSchema) : Prop where
  name : Quotable vi.indexName
  vector : Quotable vi.vectorAttr
  dimensions : IsLong vi.dimensions
  search : ∀ element ∈ vi.searchSchema, Quotable element.attr
  projection : vi.shownProjection.Printable

instance (vi : VectorIndexSchema) : Decidable vi.Printable :=
  decidable_of_iff (Quotable vi.indexName ∧ Quotable vi.vectorAttr ∧ IsLong vi.dimensions ∧
      (∀ element ∈ vi.searchSchema, Quotable element.attr) ∧ vi.shownProjection.Printable)
    ⟨fun h => ⟨h.1, h.2.1, h.2.2.1, h.2.2.2.1, h.2.2.2.2⟩,
      fun h => ⟨h.name, h.vector, h.dimensions, h.search, h.projection⟩⟩

/-- The view types of the service. -/
def streamViewTypeNamed (mapped : String) : Option StreamViewType :=
  if mapped = "NEW_IMAGE" then some .newImage
  else if mapped = "OLD_IMAGE" then some .oldImage
  else if mapped = "KEYS_ONLY" then some .keysOnly
  else if mapped = "NEW_AND_OLD_IMAGES" then some .newAndOldImages
  else none

structure DescribeTableOut.Printable (td : DescribeTableOut) : Prop where
  table : Quotable td.tableName
  attributes : td.attributeDefinitions ≠ []
  attributeNames : ∀ d ∈ td.attributeDefinitions, Quotable d.name
  key : td.keySchema.Printable
  reads : IsLong td.provisionedReadCapacityUnits
  writes : IsLong td.provisionedWriteCapacityUnits
  gsis : ∀ index ∈ td.globalSecondaryIndexes, index.Printable
  lsis : ∀ index ∈ td.localSecondaryIndexes, index.Printable
  vsis : ∀ vi ∈ td.vectorIndexes, vi.Printable
  stream : ∀ mapped ∈ td.streamViewType, (streamViewTypeNamed mapped).isSome

instance (td : DescribeTableOut) : Decidable td.Printable :=
  decidable_of_iff (Quotable td.tableName ∧ td.attributeDefinitions ≠ [] ∧
      (∀ d ∈ td.attributeDefinitions, Quotable d.name) ∧ td.keySchema.Printable ∧
      IsLong td.provisionedReadCapacityUnits ∧ IsLong td.provisionedWriteCapacityUnits ∧
      (∀ index ∈ td.globalSecondaryIndexes, index.Printable) ∧
      (∀ index ∈ td.localSecondaryIndexes, index.Printable) ∧
      (∀ vi ∈ td.vectorIndexes, vi.Printable) ∧
      ∀ mapped ∈ td.streamViewType, (streamViewTypeNamed mapped).isSome)
    ⟨fun ⟨h1, h2, h3, h4, h5, h6, h7, h8, h9, h10⟩ => ⟨h1, h2, h3, h4, h5, h6, h7, h8, h9, h10⟩,
      fun h => ⟨h.table, h.attributes, h.attributeNames, h.key, h.reads, h.writes, h.gsis, h.lsis,
        h.vsis, h.stream⟩⟩

/-! ### What is read back -/

def TableKeySchema.shown (ks : TableKeySchema) : KeySchema := ⟨ks.hashKeys, ks.rangeKeys⟩

def Projection.shown (p : Projection) : Projection :=
  ⟨p.type, if p.type = .include then p.nonKeyAttributes else []⟩

def provisionedBilling (rcu wcu : Int) : BillingModeAndThroughput :=
  { mode := .provisioned, rcu := rcu, wcu := wcu }

def onDemandBilling : BillingModeAndThroughput := { mode := .payPerRequest }

def SecondaryIndexSchema.shownGsi (tableOnDemand : Bool) (index : SecondaryIndexSchema) : Gsi where
  name := index.indexName
  keySchema := index.keySchema.shown
  projection := index.projection.shown
  billing := some <|
    if tableOnDemand then onDemandBilling
    else provisionedBilling index.provisionedReadCapacityUnits index.provisionedWriteCapacityUnits

def SecondaryIndexSchema.shownLsi (index : SecondaryIndexSchema) : Lsi :=
  ⟨index.indexName, index.keySchema.shown, index.projection.shown⟩

def VectorIndexSchema.shown (vi : VectorIndexSchema) : VectorIndexDef where
  indexName := vi.indexName
  vectorAttr := vi.vectorAttr
  dimensions := vi.dimensions
  distance := vi.distance
  searchSchema := vi.searchSchema
  projection := vi.shownProjection.shown

def DescribeTableOut.shownBilling (td : DescribeTableOut) : Option BillingModeAndThroughput :=
  let provisioned :=
    provisionedBilling td.provisionedReadCapacityUnits td.provisionedWriteCapacityUnits
  match td.billingModeSummary with
  | some summary =>
      if summary = "PROVISIONED" then some provisioned
      else if summary = "PAY_PER_REQUEST" then some onDemandBilling
      else none
  | none => if td.provisionedThroughputSet then some provisioned else none

def DescribeTableOut.shownStream (td : DescribeTableOut) : Option StreamSpec :=
  if td.streamSpecificationSet then
    match td.streamViewType with
    | some mapped => (streamViewTypeNamed mapped).map fun type => ⟨true, type⟩
    | none => some ⟨false, .keysOnly⟩
  else none

def DescribeTableOut.shownTableClass (td : DescribeTableOut) : TableClass :=
  if td.tableClassSummary.getD "STANDARD" = "STANDARD_INFREQUENT_ACCESS" then
    .standardInfrequentAccess
  else .standard

/-- The statement that the text of a table's description is read back as. -/
def DescribeTableOut.shown (td : DescribeTableOut) (cmd : ShowCreateTableCmd) :
    CreateTableCmd where
  tableName := td.tableName
  ifNotExists := cmd.ifNotExists
  nowait := cmd.nowait
  attributeDefinitions := td.attributeDefinitions
  keySchema := td.keySchema.shown
  billing := td.shownBilling
  gsis := td.globalSecondaryIndexes.map (·.shownGsi td.onDemand)
  lsis := td.localSecondaryIndexes.map (·.shownLsi)
  vectorIndexes := td.vectorIndexes.map (·.shown)
  stream := td.shownStream
  tableClass := td.shownTableClass
  deletionProtection := td.deletionProtectionEnabled

/-! ### Clauses -/

theorem blankBetween {Xs : List Symbol} {vs : List Semantic} {text : List Char}
    (h : ReadsAll Xs vs text) : ReadsAll Xs vs (" ".toList ++ text) :=
  .words " " [] (by decide) (ends_of_gap rfl) h

/-- A clause with a blank behind it. -/
theorem reads_clause {X : Symbol} {Xs : List Symbol} {v : Semantic} {vs : List Semantic}
    {clause text whole : List Char} (heq : whole = clause ++ (" ".toList ++ text))
    (hX : Reads X v clause) (h : ReadsAll Xs vs text) :
    ReadsAll (X :: Xs) (v :: vs) whole :=
  heq ▸ .sub hX (parted_of_head rfl) (blankBetween h)

/-- A clause that is there. -/
theorem reads_optional {A B : Nonterminal} {v w : Semantic} {text : List Char}
    (rule : [nt B] ∈ productions A) (hv : ruleAction A [v] = w) (h : Reads (nt B) v text) :
    Reads (nt A) w text := .node [nt B] rule rfl (.last h) hv

/-- A clause that is not there. -/
theorem parses_absent {A : Nonterminal} {v : Semantic} (rule : [] ∈ productions A)
    (hv : ruleAction A [] = v) :
    LR.ParsesAnywhere statementGrammar SymbolType.kind actions (nt A) v [] :=
  fun _ _ => hv ▸ LR.Parses.plain rule rfl .nil

/-! ### Keys -/

theorem reads_names {attrs : List String} (hne : attrs ≠ []) (h : ∀ attr ∈ attrs, Quotable attr) :
    Reads (nt .keyAttrNameList) (.names attrs) (commaSeparated (attrs.map quoteName)) :=
  reads_list .keyAttrNameList .string .string .names rfl (fun _ => rfl) (fun _ _ => rfl) hne
    fun attr hattr => reads_quoted (h attr hattr)

theorem reads_keyAttributes {attrs : List String} (hne : attrs ≠ [])
    (h : ∀ attr ∈ attrs, Quotable attr) :
    Reads (nt .keyAttrGroup) (.names attrs) (keyAttributes attrs) := by
  have hmany : Reads (nt .keyAttrGroup) (.names attrs)
      ("(".toList ++ (commaSeparated (attrs.map quoteName) ++ ")".toList)) :=
    .node _ (by decide) rfl
      (.words "(" [punctuation '('] (by decide) (ends_of_gap rfl)
        (.sub (reads_names hne h) (parted_of_head rfl)
          (.ends ")" [punctuation ')'] (by decide)))) rfl
  unfold keyAttributes
  split
  · next attr =>
      exact .node _ (by decide) rfl (.last (reads_quoted (h attr List.mem_cons_self))) rfl
  · exact hmany

/-- A role of a key and its attributes. -/
def keyRoleText (role : Bool × List String) : List Char :=
  keyAttributes role.2 ++ if role.1 then " HASH".toList else " RANGE".toList

def keyRoles (ks : TableKeySchema) : List (Bool × List String) :=
  [(true, ks.hashKeys), (false, ks.rangeKeys)].filter fun role => !role.2.isEmpty

theorem keyDescription_eq (ks : TableKeySchema) :
    keyDescription ks = commaSeparated ((keyRoles ks).map keyRoleText) := by
  unfold keyDescription keyRoles keyGroup
  cases ks.hashKeys <;> cases ks.rangeKeys <;> rfl

theorem foldl_keyRoles (ks : TableKeySchema) :
    (keyRoles ks).foldl (fun schema role => schema.addKeyRole role.1 role.2) {} = ks.shown := by
  unfold keyRoles TableKeySchema.shown
  cases ks.hashKeys <;> cases ks.rangeKeys <;> rfl

theorem reads_keyRole {role : Bool × List String} (hne : role.2 ≠ [])
    (h : ∀ attr ∈ role.2, Quotable attr) :
    Reads (nt .keyRole) (.keyRole role.1 role.2) (keyRoleText role) := by
  obtain ⟨isHash, attrs⟩ := role
  have hattrs := reads_keyAttributes hne h
  cases isHash with
  | true =>
      exact .node _ (by decide) rfl (.sub hattrs (parted_of_head rfl)
        (.ends " HASH" [keywordToken .kHash "HASH"] (by decide))) rfl
  | false =>
      exact .node _ (by decide) rfl (.sub hattrs (parted_of_head rfl)
        (.ends " RANGE" [keywordToken .kRange "RANGE"] (by decide))) rfl

theorem reads_keyDescription {ks : TableKeySchema} (h : ks.Printable) :
    Reads (nt .keyRoleList) (.keySchema ks.shown) (keyDescription ks) := by
  rw [keyDescription_eq, ← foldl_keyRoles]
  have hrole : ∀ role ∈ keyRoles ks,
      Reads (nt .keyRole) (.keyRole role.1 role.2) (keyRoleText role) := by
    intro role hmem
    obtain ⟨hmem, hne⟩ := List.mem_filter.mp hmem
    refine reads_keyRole (by simpa using hne) fun attr hattr => h.names attr ?_
    simp only [List.mem_cons, List.not_mem_nil, or_false] at hmem
    rcases hmem with rfl | rfl
    · exact List.mem_append_left _ hattr
    · exact List.mem_append_right _ hattr
  have hne : keyRoles ks ≠ [] := by
    rcases h.some with hhash | hrange
    · exact List.ne_nil_of_mem (List.mem_filter.mpr ⟨List.mem_cons_self, by simpa using hhash⟩)
    · exact List.ne_nil_of_mem (List.mem_filter.mpr
        ⟨List.mem_cons_of_mem _ List.mem_cons_self, by simpa using hrange⟩)
  refine reads_list .keyRoleList .keyRole (fun role => .keyRole role.1 role.2)
    (fun roles => .keySchema
      (roles.foldl (fun schema role => schema.addKeyRole role.1 role.2) {}))
    rfl (fun _ => rfl) ?_ hne hrole
  intro roles role
  rw [List.foldl_append]
  rfl

/-- A key in its parentheses. -/
theorem reads_keySchema {ks : TableKeySchema} (h : ks.Printable) :
    Reads (nt .keySchema) (.keySchema ks.shown)
      ("( ".toList ++ (keyDescription ks ++ " )".toList)) :=
  .node [chr '(', nt .keyRoleList, chr ')'] (by decide) rfl
    (.words "( " [punctuation '('] (by decide) (ends_of_gap rfl)
      (.sub (reads_keyDescription h) (parted_of_head rfl)
        (.ends " )" [punctuation ')'] (by decide)))) rfl

/-! ### Projections -/

theorem reads_includeNames {names : List String} (hne : names ≠ [])
    (h : ∀ name ∈ names, Bare name) :
    Reads (nt .indexProjectionList) (.names names) (commaSeparated (names.map String.toList)) :=
  reads_list .indexProjectionList .string .string .names rfl (fun _ => rfl) (fun _ _ => rfl) hne
    fun name hname => reads_bare (h name hname)

theorem reads_projection {p : Projection} (h : p.Printable) :
    Reads (nt .indexProjection) (.projection p.shown) (projectionDdl p) := by
  obtain ⟨type, names⟩ := p
  cases type with
  | all =>
      exact .words "PROJECTING ALL" [keywordToken .kProjecting "PROJECTING",
        keywordToken .kAll "ALL"] (by decide) (by decide) rfl rfl
  | keysOnly =>
      exact .words "PROJECTING KEYS ONLY" [keywordToken .kProjecting "PROJECTING",
        keywordToken .kKeys "KEYS", keywordToken .kOnly "ONLY"] (by decide) (by decide)
        rfl rfl
  | «include» =>
      obtain ⟨hne, hnames⟩ := h rfl
      exact .node _ (by decide) rfl
        (.words "PROJECTING INCLUDE (" [keywordToken .kProjecting "PROJECTING",
            keywordToken .kInclude "INCLUDE", punctuation '('] (by decide)
          (ends_of_gap rfl)
          (.sub (reads_includeNames hne hnames) (parted_of_head rfl)
            (.ends ")" [punctuation ')'] (by decide)))) rfl

/-! ### Capacities -/

theorem parseLl_numeral {n : Int} (h : IsLong n) : parseLl (toString n) = n :=
  parseLl_toString h.1 h.2

/-- The clause without the blank behind it. -/
def provisionedClause (rcu wcu : Int) : List Char :=
  "BILLING MODE PROVISIONED ( ".toList ++
    (numeral rcu ++ (" RCU, ".toList ++ (numeral wcu ++ " WCU )".toList)))

theorem reads_provisioned {rcu wcu : Int} (hrcu : IsLong rcu) (hwcu : IsLong wcu) :
    Reads (nt .billingModeAndThroughput) (.billing (provisionedBilling rcu wcu))
      (provisionedClause rcu wcu) := by
  refine .node [tok .kBilling, tok .kMode, tok .kProvisioned, chr '(', tok .tWholeNumber,
      tok .kRcu, chr ',', tok .tWholeNumber, tok .kWcu, chr ')'] (by decide) rfl
    (.words "BILLING MODE PROVISIONED ( " [keywordToken .kBilling "BILLING",
        keywordToken .kMode "MODE", keywordToken .kProvisioned "PROVISIONED", punctuation '(']
      (by decide) (ends_of_gap rfl)
      (.sub (reads_numeral rcu) (parted_of_head rfl)
        (.words " RCU, " [keywordToken .kRcu "RCU", comma] (by decide) (ends_of_gap rfl)
          (.sub (reads_numeral wcu) (parted_of_head rfl)
            (.ends " WCU )" [keywordToken .kWcu "WCU", punctuation ')']
              (by decide)))))) ?_
  have hunits : RuleAction.units ⟨.kind .tWholeNumber, toString rcu⟩ (keywordToken .kRcu "RCU")
      ⟨.kind .tWholeNumber, toString wcu⟩ = (rcu, wcu) := by
    change (parseLl (toString rcu), parseLl (toString wcu)) = (rcu, wcu)
    rw [parseLl_numeral hrcu, parseLl_numeral hwcu]
  change Semantic.billing _ = _
  simp only [hunits, provisionedBilling]

theorem reads_onDemand :
    Reads (nt .billingModeAndThroughput) (.billing onDemandBilling)
      "BILLING MODE ON DEMAND".toList :=
  .words "BILLING MODE ON DEMAND" [keywordToken .kBilling "BILLING", keywordToken .kMode "MODE",
    keywordToken .kOn "ON", keywordToken .kDemand "DEMAND"] (by decide) (by decide) rfl rfl

/-! ### Indexes -/

/-- The key of an index stands in parentheses of its own. -/
theorem onKey_eq (key rest : List Char) :
    " ON ( ".toList ++ (key ++ (" ) ".toList ++ rest)) =
      " ON ".toList ++ (("( ".toList ++ (key ++ " )".toList)) ++ (" ".toList ++ rest)) := by
  simp

theorem reads_onKey {ks : TableKeySchema} (h : ks.Printable) {Xs : List Symbol}
    {vs : List Semantic} {rest : List Char} (hrest : ReadsAll Xs vs rest) :
    ReadsAll (tok .kOn :: nt .keySchema :: Xs)
      (.token (keywordToken .kOn "ON") :: .keySchema ks.shown :: vs)
      (" ON ( ".toList ++ (keyDescription ks ++ (" ) ".toList ++ rest))) := by
  rw [onKey_eq]
  exact .words " ON " [keywordToken .kOn "ON"] (by decide) (ends_of_gap rfl)
    (.sub (reads_keySchema h) (parted_of_head rfl) (blankBetween hrest))

/-- The billing clause of a table or an index. -/
theorem reads_billing {rcu wcu : Int} (hrcu : IsLong rcu) (hwcu : IsLong wcu)
    (onDemand : Bool) {Xs : List Symbol} {vs : List Semantic} {rest : List Char}
    (hrest : ReadsAll Xs vs rest) :
    ReadsAll (nt .optionalBillingModeAndThroughput :: Xs)
      (.optionalBilling (some (if onDemand then onDemandBilling
        else provisionedBilling rcu wcu)) :: vs)
      ((if onDemand then billingModeOnDemand else billingModeProvisioned rcu wcu) ++ rest) := by
  cases onDemand with
  | true =>
      have hclause : Reads (nt .optionalBillingModeAndThroughput)
          (.optionalBilling (some onDemandBilling)) "BILLING MODE ON DEMAND".toList :=
        reads_optional (by decide) rfl reads_onDemand
      have htext : billingModeOnDemand ++ rest =
          "BILLING MODE ON DEMAND".toList ++ (" ".toList ++ rest) := by
        have hwords : billingModeOnDemand =
            "BILLING MODE ON DEMAND".toList ++ " ".toList := by decide
        rw [hwords, List.append_assoc]
      exact reads_clause htext hclause hrest
  | false =>
      have hclause : Reads (nt .optionalBillingModeAndThroughput)
          (.optionalBilling (some (provisionedBilling rcu wcu))) (provisionedClause rcu wcu) :=
        reads_optional (by decide) rfl (reads_provisioned hrcu hwcu)
      have htext : billingModeProvisioned rcu wcu ++ rest =
          provisionedClause rcu wcu ++ (" ".toList ++ rest) := by
        have hwords : " WCU ) ".toList = " WCU )".toList ++ " ".toList := by decide
        unfold billingModeProvisioned provisionedClause
        rw [hwords]
        simp only [List.append_assoc]
      exact reads_clause htext hclause hrest

theorem reads_gsi {index : SecondaryIndexSchema} (h : index.Printable) (tableOnDemand : Bool) :
    Reads (nt .gsi) (.gsi (index.shownGsi tableOnDemand)) (gsiDdl tableOnDemand index) := by
  have hwarm : ReadsAll [nt .optionalWarmThroughput] [.optionalWarm none] [] :=
    .absent (parses_absent (by decide) rfl) .nil
  have hbilling := reads_billing h.reads h.writes tableOnDemand hwarm
  rw [List.append_nil] at hbilling
  exact .node [nt .string, tok .kOn, nt .keySchema, nt .indexProjection,
      nt .optionalBillingModeAndThroughput, nt .optionalWarmThroughput] (by decide) rfl
    (.sub (reads_quoted h.name) (parted_of_head rfl) (reads_onKey h.key
      (.sub (reads_projection h.projection) (parted_of_head rfl) (blankBetween hbilling)))) rfl

theorem reads_lsi {index : SecondaryIndexSchema} (h : index.Printable) :
    Reads (nt .lsi) (.lsi index.shownLsi) (lsiDdl index) :=
  .node [nt .string, tok .kOn, nt .keySchema, nt .indexProjection] (by decide) rfl
    (.sub (reads_quoted h.name) (parted_of_head rfl) (reads_onKey h.key
      (.sub (reads_projection h.projection) (parted_of_head rfl) (blankBetween .nil)))) rfl

theorem reads_distance (d : VectorDistance) :
    Reads (nt .vectorDistanceFunction) (.distance d) (vsiDistanceDdl d) := by
  cases d with
  | cosine =>
      exact .words "COSINE" [keywordToken .kCosine "COSINE"] (by decide) (by decide) rfl rfl
  | euclidean =>
      exact .words "EUCLIDEAN" [keywordToken .kEuclidean "EUCLIDEAN"] (by decide)
        (by decide) rfl rfl
  | dotProduct =>
      exact .words "DOT_PRODUCT" [keywordToken .kDotProduct "DOT_PRODUCT"] (by decide)
        (by decide) rfl rfl

theorem reads_searchElement {element : SearchSchemaElem} (h : Quotable element.attr) :
    Reads (nt .vectorSearchSchemaElement) (.searchElement element) (searchElementDdl element) := by
  obtain ⟨attr, kind⟩ := element
  cases kind with
  | hash =>
      exact .node _ (by decide) rfl (.sub (reads_quoted h) (parted_of_head rfl)
        (.ends " HASH" [keywordToken .kHash "HASH"] (by decide))) rfl
  | inlineFilter =>
      exact .node _ (by decide) rfl (.sub (reads_quoted h) (parted_of_head rfl)
        (.ends " FILTER" [keywordToken .kFilter "FILTER"] (by decide))) rfl

theorem reads_searchSchema {elements : List SearchSchemaElem} {Xs : List Symbol}
    {vs : List Semantic} {rest : List Char} (h : ∀ element ∈ elements, Quotable element.attr)
    (hparted : Parted rest) (hrest : ReadsAll Xs vs rest) :
    ReadsAll (nt .optionalVectorSearchSchema :: Xs) (.searchSchema elements :: vs)
      (searchSchemaDdl elements ++ rest) := by
  cases helements : elements with
  | nil => exact .absent (parses_absent (by decide) rfl) hrest
  | cons element others =>
      rw [← helements]
      have hne : elements ≠ [] := by simp [helements]
      have hlist : Reads (nt .vectorSearchSchemaList) (.searchSchema elements)
          (commaSeparated (elements.map searchElementDdl)) :=
        reads_list .vectorSearchSchemaList .vectorSearchSchemaElement .searchElement .searchSchema
          rfl (fun _ => rfl) (fun _ _ => rfl) hne fun e he => reads_searchElement (h e he)
      have hclause : Reads (nt .optionalVectorSearchSchema) (.searchSchema elements)
          (searchSchemaDdl elements) := by
        rw [searchSchemaDdl, if_neg (by simpa using hne)]
        exact .node [tok .kSearch, tok .kKey, chr '(', nt .vectorSearchSchemaList, chr ')']
          (by decide) rfl
          (.words " SEARCH KEY ( " [keywordToken .kSearch "SEARCH", keywordToken .kKey "KEY",
              punctuation '('] (by decide) (ends_of_gap rfl)
            (.sub hlist (parted_of_head rfl)
              (.ends " )" [punctuation ')'] (by decide)))) rfl
      exact .sub hclause hparted hrest

theorem reads_vsi {vi : VectorIndexSchema} (h : vi.Printable) :
    Reads (nt .vectorIndex) (.vectorIndex vi.shown) (vsiDdl vi) := by
  refine .node [nt .string, tok .kOn, nt .string, tok .kDimensions, tok .tWholeNumber,
      tok .kDistance, nt .vectorDistanceFunction, nt .optionalVectorSearchSchema,
      nt .indexProjection] (by decide) rfl
    (.sub (reads_quoted h.name) (parted_of_head rfl)
      (.words " ON " [keywordToken .kOn "ON"] (by decide) (ends_of_gap rfl)
        (.sub (reads_quoted h.vector) (parted_of_head rfl)
          (.words " DIMENSIONS " [keywordToken .kDimensions "DIMENSIONS"] (by decide)
            (ends_of_gap rfl)
            (.sub (reads_numeral vi.dimensions) (parted_of_head rfl)
              (.words " DISTANCE " [keywordToken .kDistance "DISTANCE"] (by decide)
                (ends_of_gap rfl)
                (.sub (reads_distance vi.distance) ?_
                  (reads_searchSchema h.search (parted_of_head rfl)
                    (blankBetween (.last (reads_projection h.projection))))))))))) ?_
  · unfold searchSchemaDdl
    split <;> exact parted_of_head rfl
  · change Semantic.vectorIndex _ = _
    rw [parseLl_numeral h.dimensions]
    rfl

/-- The indexes of one kind: nothing, or a list in parentheses. -/
theorem reads_indexes {A : Nonterminal} {v : Semantic} {opening : String}
    {parts : List (List Char)} (hempty : [] ∈ productions A)
    (hnone : parts = [] → ruleAction A [] = v)
    (hsome : parts ≠ [] →
      Reads (nt A) v (opening.toList ++ (commaSeparated parts ++ ")".toList)))
    {Xs : List Symbol} {vs : List Semantic} {rest : List Char} (hrest : ReadsAll Xs vs rest) :
    ReadsAll (nt A :: Xs) (v :: vs) (indexClause opening parts ++ rest) := by
  unfold indexClause
  cases hparts : parts with
  | nil => exact .absent (parses_absent hempty (hnone hparts)) hrest
  | cons part others =>
      rw [← hparts]
      have hne : parts ≠ [] := by simp [hparts]
      have hwords : ") ".toList = ")".toList ++ " ".toList := by decide
      refine reads_clause ?_ (hsome hne) hrest
      rw [if_neg (by simpa using hne), hwords]
      simp only [List.append_assoc]

theorem reads_gsis {gsis : List SecondaryIndexSchema} (h : ∀ index ∈ gsis, index.Printable)
    (tableOnDemand : Bool) {Xs : List Symbol} {vs : List Semantic} {rest : List Char}
    (hrest : ReadsAll Xs vs rest) :
    ReadsAll (nt .gsiList :: Xs) (.gsis (gsis.map (·.shownGsi tableOnDemand)) :: vs)
      (showGsis gsis tableOnDemand ++ rest) := by
  refine reads_indexes (by decide) ?_ ?_ hrest
  · intro hnil
    rw [List.map_eq_nil_iff.mp hnil]
    rfl
  · intro hne
    have hlist : Reads (nt .gsiSpecification) (.gsis (gsis.map (·.shownGsi tableOnDemand)))
        (commaSeparated (gsis.map (gsiDdl tableOnDemand))) :=
      reads_list .gsiSpecification .gsi (fun index => .gsi (index.shownGsi tableOnDemand))
        (fun list => .gsis (list.map (·.shownGsi tableOnDemand))) rfl (fun _ => rfl)
        (fun list index => by
          simp [ruleAction, RuleAction.listAction, RuleAction.asGsi, RuleAction.asGsis])
        (fun hnil => hne (List.map_eq_nil_iff.mpr hnil)) fun index hindex =>
          reads_gsi (h index hindex) tableOnDemand
    exact .node [tok .kGsi, chr '(', nt .gsiSpecification, chr ')'] (by decide) rfl
      (.words "GSI (" [keywordToken .kGsi "GSI", punctuation '('] (by decide)
        (ends_of_gap rfl) (.sub hlist (parted_of_head rfl)
          (.ends ")" [punctuation ')'] (by decide)))) rfl

theorem reads_lsis {lsis : List SecondaryIndexSchema} (h : ∀ index ∈ lsis, index.Printable)
    {Xs : List Symbol} {vs : List Semantic} {rest : List Char} (hrest : ReadsAll Xs vs rest) :
    ReadsAll (nt .lsiList :: Xs) (.lsis (lsis.map (·.shownLsi)) :: vs)
      (showLsis lsis ++ rest) := by
  refine reads_indexes (by decide) ?_ ?_ hrest
  · intro hnil
    rw [List.map_eq_nil_iff.mp hnil]
    rfl
  · intro hne
    have hlist : Reads (nt .lsiSpecification) (.lsis (lsis.map (·.shownLsi)))
        (commaSeparated (lsis.map lsiDdl)) :=
      reads_list .lsiSpecification .lsi (fun index => .lsi index.shownLsi)
        (fun list => .lsis (list.map (·.shownLsi))) rfl (fun _ => rfl)
        (fun list index => by
          simp [ruleAction, RuleAction.listAction, RuleAction.asLsi, RuleAction.asLsis])
        (fun hnil => hne (List.map_eq_nil_iff.mpr hnil)) fun index hindex =>
          reads_lsi (h index hindex)
    exact .node [tok .kLsi, chr '(', nt .lsiSpecification, chr ')'] (by decide) rfl
      (.words "LSI (" [keywordToken .kLsi "LSI", punctuation '('] (by decide)
        (ends_of_gap rfl) (.sub hlist (parted_of_head rfl)
          (.ends ")" [punctuation ')'] (by decide)))) rfl

theorem reads_vsis {vsis : List VectorIndexSchema} (h : ∀ vi ∈ vsis, vi.Printable)
    {Xs : List Symbol} {vs : List Semantic} {rest : List Char} (hrest : ReadsAll Xs vs rest) :
    ReadsAll (nt .vectorIndexList :: Xs) (.vectorIndexes (vsis.map (·.shown)) :: vs)
      (showVsis vsis ++ rest) := by
  refine reads_indexes (by decide) ?_ ?_ hrest
  · intro hnil
    rw [List.map_eq_nil_iff.mp hnil]
    rfl
  · intro hne
    have hlist : Reads (nt .vectorIndexSpecification) (.vectorIndexes (vsis.map (·.shown)))
        (commaSeparated (vsis.map vsiDdl)) :=
      reads_list .vectorIndexSpecification .vectorIndex (fun vi => .vectorIndex vi.shown)
        (fun list => .vectorIndexes (list.map (·.shown))) rfl (fun _ => rfl)
        (fun list vi => by
          simp [ruleAction, RuleAction.listAction, RuleAction.asVectorIndex,
            RuleAction.asVectorIndexes])
        (fun hnil => hne (List.map_eq_nil_iff.mpr hnil)) fun vi hvi => reads_vsi (h vi hvi)
    have hkeyword : Reads (nt .vsiKeyword) .vsiKeyword "VSI".toList :=
      .words "VSI" [keywordToken .kVsi "VSI"] (by decide) (by decide) rfl rfl
    have hwords : "VSI (".toList = "VSI".toList ++ " (".toList := by decide
    rw [hwords, List.append_assoc]
    exact .node [nt .vsiKeyword, chr '(', nt .vectorIndexSpecification, chr ')'] (by decide) rfl
      (.sub hkeyword (parted_of_head rfl)
        (.words " (" [punctuation '('] (by decide) (ends_of_gap rfl)
          (.sub hlist (parted_of_head rfl)
            (.ends ")" [punctuation ')'] (by decide))))) rfl

/-! ### Settings -/

theorem reads_viewType {mapped : String} {type : StreamViewType}
    (h : streamViewTypeNamed mapped = some type) :
    Reads (nt .streamViewType) (.streamViewType type) (streamViewWords mapped) := by
  unfold streamViewTypeNamed at h
  unfold streamViewWords
  split
  · next hnew =>
      obtain rfl := Option.some.inj ((if_pos hnew).symm.trans h)
      exact .words "NEW IMAGE" [keywordToken .kNew "NEW", keywordToken .kImage "IMAGE"]
        (by decide) (by decide) rfl rfl
  · next hnew =>
      rw [if_neg hnew] at h
      split
      · next hold =>
          obtain rfl := Option.some.inj ((if_pos hold).symm.trans h)
          exact .words "OLD IMAGE" [keywordToken .kOld "OLD", keywordToken .kImage "IMAGE"]
            (by decide) (by decide) rfl rfl
      · next hold =>
          rw [if_neg hold] at h
          split
          · next hkeys =>
              obtain rfl := Option.some.inj ((if_pos hkeys).symm.trans h)
              exact .words "KEYS ONLY" [keywordToken .kKeys "KEYS", keywordToken .kOnly "ONLY"]
                (by decide) (by decide) rfl rfl
          · next hkeys =>
              rw [if_neg hkeys] at h
              split
              · next hboth =>
                  obtain rfl := Option.some.inj ((if_pos hboth).symm.trans h)
                  exact .words "BOTH IMAGES"
                    [keywordToken .kBoth "BOTH", keywordToken .kImages "IMAGES"]
                    (by decide) (by decide) rfl rfl
              · next hboth =>
                  rw [if_neg hboth] at h
                  cases h

theorem reads_stream {td : DescribeTableOut}
    (h : ∀ mapped ∈ td.streamViewType, (streamViewTypeNamed mapped).isSome)
    {Xs : List Symbol} {vs : List Semantic} {rest : List Char} (hrest : ReadsAll Xs vs rest) :
    ReadsAll (nt .optionalStreamSpecification :: Xs) (.optionalStream td.shownStream :: vs)
      (streamDdl td ++ rest) := by
  unfold streamDdl DescribeTableOut.shownStream
  cases td.streamSpecificationSet with
  | false => exact .absent (parses_absent (by decide) rfl) hrest
  | true =>
      cases htype : td.streamViewType with
      | none =>
          have hclause : Reads (nt .streamSpecification) (.stream ⟨false, .keysOnly⟩)
              "STREAM DISABLED".toList :=
            .words "STREAM DISABLED"
              [keywordToken .kStream "STREAM", keywordToken .kDisabled "DISABLED"]
              (by decide) (by decide) rfl rfl
          have hwords : "STREAM DISABLED ".toList =
              "STREAM DISABLED".toList ++ " ".toList := by decide
          refine reads_clause ?_ (reads_optional (by decide) rfl hclause) hrest
          simp only [if_true]
          rw [hwords, List.append_assoc]
      | some mapped =>
          obtain ⟨type, hnamed⟩ := Option.isSome_iff_exists.mp (h mapped htype)
          have hclause : Reads (nt .streamSpecification) (.stream ⟨true, type⟩)
              ("STREAM ( ".toList ++ (streamViewWords mapped ++ " )".toList)) :=
            .node [tok .kStream, chr '(', nt .streamViewType, chr ')'] (by decide) rfl
              (.words "STREAM ( " [keywordToken .kStream "STREAM", punctuation '(']
                (by decide) (ends_of_gap rfl)
                (.sub (reads_viewType hnamed) (parted_of_head rfl)
                  (.ends " )" [punctuation ')'] (by decide)))) rfl
          have hwords : " ) ".toList = " )".toList ++ " ".toList := by decide
          simp only [if_true, hnamed, Option.map_some]
          refine reads_clause ?_ (reads_optional (by decide) rfl hclause) hrest
          rw [hwords]
          simp only [List.append_assoc]

theorem reads_tableClass (td : DescribeTableOut) {Xs : List Symbol} {vs : List Semantic}
    {rest : List Char} (hrest : ReadsAll Xs vs rest) :
    ReadsAll (nt .optionalTableClass :: Xs) (.tableClass td.shownTableClass :: vs)
      (tableClassDdl td ++ rest) := by
  unfold tableClassDdl DescribeTableOut.shownTableClass
  split
  · have hclause : Reads (nt .tableClass) (.tableClass .standardInfrequentAccess)
        "TABLE CLASS STANDARD INFREQUENT ACCESS".toList :=
      .words "TABLE CLASS STANDARD INFREQUENT ACCESS" [keywordToken .kTable "TABLE",
        keywordToken .kClass "CLASS", keywordToken .kStandard "STANDARD",
        keywordToken .kInfrequent "INFREQUENT", keywordToken .kAccess "ACCESS"]
        (by decide) (by decide) rfl rfl
    have hwords : "TABLE CLASS STANDARD INFREQUENT ACCESS ".toList =
        "TABLE CLASS STANDARD INFREQUENT ACCESS".toList ++ " ".toList := by decide
    refine reads_clause ?_ (reads_optional (by decide) rfl hclause) hrest
    rw [hwords, List.append_assoc]
  · have hclause : Reads (nt .tableClass) (.tableClass .standard)
        "TABLE CLASS STANDARD".toList :=
      .words "TABLE CLASS STANDARD" [keywordToken .kTable "TABLE", keywordToken .kClass "CLASS",
        keywordToken .kStandard "STANDARD"] (by decide) (by decide) rfl rfl
    have hwords : "TABLE CLASS STANDARD ".toList =
        "TABLE CLASS STANDARD".toList ++ " ".toList := by decide
    refine reads_clause ?_ (reads_optional (by decide) rfl hclause) hrest
    rw [hwords, List.append_assoc]

theorem reads_deletionProtection (td : DescribeTableOut) :
    Reads (nt .optionalDeletionProtection) (.flag td.deletionProtectionEnabled)
      (deletionProtectionDdl td) := by
  unfold deletionProtectionDdl
  cases td.deletionProtectionEnabled with
  | true =>
      have hclause : Reads (nt .deletionProtection) (.flag true)
          "DELETION PROTECTION ENABLED".toList :=
        .words "DELETION PROTECTION ENABLED" [keywordToken .kDeletion "DELETION",
          keywordToken .kProtection "PROTECTION", keywordToken .kEnabled "ENABLED"]
          (by decide) (by decide) rfl rfl
      exact reads_optional (by decide) rfl hclause
  | false =>
      have hclause : Reads (nt .deletionProtection) (.flag false)
          "DELETION PROTECTION DISABLED".toList :=
        .words "DELETION PROTECTION DISABLED" [keywordToken .kDeletion "DELETION",
          keywordToken .kProtection "PROTECTION", keywordToken .kDisabled "DISABLED"]
          (by decide) (by decide) rfl rfl
      exact reads_optional (by decide) rfl hclause

theorem reads_attribute {d : AttributeDef} (h : Quotable d.name) :
    Reads (nt .attributeNameType) (.attribute d) (attributeDdl d) := by
  obtain ⟨name, type⟩ := d
  -- the type is the last word
  have hblank : ∀ (w : String) (t : ScalarType), Reads (nt .attributeType) (.attributeType t)
      w.toList → Reads (nt .attributeNameType) (.attribute ⟨name, t⟩)
        (quoteName name ++ (" ".toList ++ w.toList)) :=
    fun w t hw => .node [nt .string, nt .attributeType] (by decide) rfl
      (.sub (reads_quoted h) (parted_of_head rfl) (blankBetween (.last hw))) rfl
  cases type with
  | s =>
      exact hblank "string" .s (.words "string" [keywordToken .kAttributeTypeString "string"]
        (by decide) (by decide) rfl rfl)
  | n =>
      exact hblank "number" .n (.words "number" [keywordToken .kAttributeTypeNumber "number"]
        (by decide) (by decide) rfl rfl)
  | b =>
      exact hblank "binary" .b (.words "binary" [keywordToken .kAttributeTypeBinary "binary"]
        (by decide) (by decide) rfl rfl)

theorem reads_attributes {list : List AttributeDef} (hne : list ≠ [])
    (h : ∀ d ∈ list, Quotable d.name) :
    Reads (nt .attributeNameTypeList) (.attributes list)
      (commaSeparated (list.map attributeDdl)) :=
  reads_list .attributeNameTypeList .attributeNameType .attribute .attributes rfl (fun _ => rfl)
    (fun _ _ => rfl) hne fun d hd => reads_attribute (h d hd)

/-- A word that is there or not. -/
theorem reads_nowait (on : Bool) {Xs : List Symbol} {vs : List Semantic} {rest : List Char}
    (hrest : ReadsAll Xs vs rest) :
    ReadsAll (nt .nowaitClause :: Xs) (.flag on :: vs)
      ((if on then "NOWAIT ".toList else []) ++ rest) := by
  cases on with
  | false => exact .absent (parses_absent (by decide) rfl) hrest
  | true =>
      have hclause : Reads (nt .nowaitClause) (.flag true) "NOWAIT".toList :=
        .words "NOWAIT" [keywordToken .kNowait "NOWAIT"] (by decide) (by decide) rfl rfl
      have hwords : "NOWAIT ".toList = "NOWAIT".toList ++ " ".toList := by decide
      refine reads_clause ?_ hclause hrest
      rw [if_pos rfl, hwords, List.append_assoc]

/-- NOT has a precedence, but no rule is complete before it here. -/
theorem reads_ifNotExists (on : Bool) {Xs : List Symbol} {vs : List Semantic}
    {rest : List Char} (hrest : ReadsAll Xs vs rest) :
    ReadsAll (nt .ifNotExistsClause :: Xs) (.flag on :: vs)
      ((if on then "IF NOT EXISTS ".toList else []) ++ rest) := by
  cases on with
  | false => exact .absent (parses_absent (by decide) rfl) hrest
  | true =>
      have hlex : Lexer.lex "IF NOT EXISTS".toList =
          [keywordToken .kIf "IF", keywordToken .kNot "NOT", keywordToken .kExists "EXISTS"] := by
        decide
      have hclause : Reads (nt .ifNotExistsClause) (.flag true) "IF NOT EXISTS".toList := by
        refine ⟨scansApart_of_plain (by decide), ?_, fun below next => ?_⟩
        · intro t ht
          rw [hlex] at ht
          revert t
          decide
        · rw [hlex]
          exact .plain (show [tok .kIf, tok .kNot, tok .kExists] ∈ productions .ifNotExistsClause
            by decide) rfl
            (.token rfl rfl (.admitted rfl
              (LR.admits_over mem_nonterminals (by decide) below _) (.token rfl rfl .nil)))
      have hwords : "IF NOT EXISTS ".toList = "IF NOT EXISTS".toList ++ " ".toList := by decide
      refine reads_clause ?_ hclause hrest
      rw [if_pos rfl, hwords, List.append_assoc]

theorem reads_tableBilling {td : DescribeTableOut} (h : td.Printable) {Xs : List Symbol}
    {vs : List Semantic} {rest : List Char} (hrest : ReadsAll Xs vs rest) :
    ReadsAll (nt .optionalBillingModeAndThroughput :: Xs)
      (.optionalBilling td.shownBilling :: vs) (billingDdl td ++ rest) := by
  have habsent : ReadsAll (nt .optionalBillingModeAndThroughput :: Xs)
      (.optionalBilling none :: vs) rest := .absent (parses_absent (by decide) rfl) hrest
  have hprovisioned := reads_billing h.reads h.writes false hrest
  unfold billingDdl DescribeTableOut.shownBilling
  cases td.billingModeSummary with
  | none =>
      cases td.provisionedThroughputSet with
      | true => exact hprovisioned
      | false => exact habsent
  | some summary =>
      by_cases hmode : summary = "PROVISIONED"
      · simp only [hmode, if_true]
        exact hprovisioned
      · by_cases hdemand : summary = "PAY_PER_REQUEST"
        · simp only [hdemand, if_true]
          exact reads_billing h.reads h.writes true hrest
        · simp only [if_neg hmode, if_neg hdemand]
          exact habsent

theorem reads_primaryKey {ks : TableKeySchema} (h : ks.Printable) {Xs : List Symbol}
    {vs : List Semantic} {rest : List Char} (hrest : ReadsAll Xs vs rest) :
    ReadsAll (chr ')' :: nt .primaryKey :: Xs)
      (.token (punctuation ')') :: .keySchema ks.shown :: vs)
      (") PRIMARY KEY (".toList ++ (keyDescription ks ++ (") ".toList ++ rest))) := by
  have hkey : Reads (nt .keySchema) (.keySchema ks.shown)
      ("(".toList ++ (keyDescription ks ++ ")".toList)) :=
    .node [chr '(', nt .keyRoleList, chr ')'] (by decide) rfl
      (.words "(" [punctuation '('] (by decide) (ends_of_gap rfl)
        (.sub (reads_keyDescription h) (parted_of_head rfl)
          (.ends ")" [punctuation ')'] (by decide)))) rfl
  have hprimary : Reads (nt .primaryKey) (.keySchema ks.shown)
      ("PRIMARY KEY ".toList ++ ("(".toList ++ (keyDescription ks ++ ")".toList))) :=
    .node [tok .kPrimary, tok .kKey, nt .keySchema] (by decide) rfl
      (.words "PRIMARY KEY " [keywordToken .kPrimary "PRIMARY", keywordToken .kKey "KEY"]
        (by decide) (ends_of_gap rfl) (.last hkey)) rfl
  have hopen : ") PRIMARY KEY (".toList = ") ".toList ++ ("PRIMARY KEY ".toList ++ "(".toList) := by
    decide
  have hclose : ") ".toList = ")".toList ++ " ".toList := by decide
  have hwhole := ReadsAll.words ") " [punctuation ')'] (by decide) (ends_of_gap rfl)
    (reads_clause rfl hprimary hrest)
  have htext : ") PRIMARY KEY (".toList ++ (keyDescription ks ++ (") ".toList ++ rest)) =
      ") ".toList ++
        (("PRIMARY KEY ".toList ++ ("(".toList ++ (keyDescription ks ++ ")".toList))) ++
          (" ".toList ++ rest)) := by
    rw [hopen, hclose]
    simp only [List.append_assoc]
  rw [htext]
  exact hwhole

/-! ### The round trip -/

theorem reads_reconstructDdl {td : DescribeTableOut} (h : td.Printable)
    (cmd : ShowCreateTableCmd) :
    Reads (nt .createTableCommand) (.command (.explainable (.createTable (td.shown cmd))))
      (reconstructDdl cmd td) := by
  have htags : ReadsAll [nt .optionalTableTags] [.tags []] [] :=
    .absent (parses_absent (by decide) rfl) .nil
  have hdeletion := ReadsAll.sub (reads_deletionProtection td) (fun _ hd => by cases hd) htags
  rw [List.append_nil] at hdeletion
  have hsettings := reads_stream h.stream
    (.absent (parses_absent (A := .optionalSseSpecification) (by decide) rfl)
      (reads_tableClass td hdeletion))
  have hindexes := reads_gsis h.gsis td.onDemand (reads_lsis h.lsis (reads_vsis h.vsis hsettings))
  have hbilling := reads_tableBilling h
    (.absent (parses_absent (A := .optionalWarmThroughput) (by decide) rfl) hindexes)
  have hbody := ReadsAll.sub (reads_quoted h.table) (parted_of_head rfl)
    (ReadsAll.words " (" [punctuation '('] (by decide) (ends_of_gap rfl)
      (.sub (reads_attributes h.attributes h.attributeNames) (parted_of_head rfl)
        (reads_primaryKey h.key hbilling)))
  exact .node [tok .kCreate, tok .kTable, nt .ifNotExistsClause, nt .nowaitClause, nt .string,
      chr '(', nt .attributeNameTypeList, chr ')', nt .primaryKey,
      nt .optionalBillingModeAndThroughput, nt .optionalWarmThroughput, nt .gsiList, nt .lsiList,
      nt .vectorIndexList, nt .optionalStreamSpecification, nt .optionalSseSpecification,
      nt .optionalTableClass, nt .optionalDeletionProtection, nt .optionalTableTags]
    (by decide) rfl
    (.words "CREATE TABLE " [keywordToken .kCreate "CREATE", keywordToken .kTable "TABLE"]
      (by decide) (ends_of_gap rfl) (reads_ifNotExists cmd.ifNotExists
        (reads_nowait cmd.nowait hbody))) rfl

theorem lex_reconstructDdl (cmd : ShowCreateTableCmd) (td : DescribeTableOut) :
    ∃ others, Lexer.lex (reconstructDdl cmd td) = keywordToken .kCreate "CREATE" :: others := by
  have hfront : Lexer.lex "CREATE TABLE ".toList =
      [keywordToken .kCreate "CREATE", keywordToken .kTable "TABLE"] := by decide
  unfold reconstructDdl
  rw [lex_append (by decide) (ends_of_gap rfl), hfront]
  exact ⟨_, rfl⟩

/-- What SHOW CREATE TABLE prints of a table is one statement, which creates
the table as it is described. -/
theorem reconstructDdl_parses {td : DescribeTableOut} (h : td.Printable)
    (cmd : ShowCreateTableCmd) :
    ParsesTo (reconstructDdl cmd td)
      [some ⟨.explainable (.createTable (td.shown cmd)), false⟩] := by
  have hcreate := reads_reconstructDdl h cmd
  have hddl : Reads (nt .ddlCommand) (.command (.explainable (.createTable (td.shown cmd))))
      (reconstructDdl cmd td) := .node [nt .createTableCommand] (by decide) rfl (.last hcreate) rfl
  have hcommand : Reads (nt .command) (.command (.explainable (.createTable (td.shown cmd))))
      (reconstructDdl cmd td) := .node [nt .ddlCommand] (by decide) rfl (.last hddl) rfl
  refine hcommand.parsesTo ?_
  obtain ⟨others, hlex⟩ := lex_reconstructDdl cmd td
  rw [hlex]
  exact List.cons_ne_nil _ _

theorem runs_showCreateTable {cmd : ShowCreateTableCmd} {counter counter' : Nat}
    {events : List (Program.Event Effect Effect.Answer)} {outcome : ExecOutcome}
    (h : Exec.Runs (executeShowCreateTable cmd) counter events (.ok outcome, counter')) :
    ∃ td later, events = ⟨.client (.describeTable cmd.table), .ok td⟩ :: later ∧
      td.tableStatus = "ACTIVE" ∧
      outcome = .report [String.ofList (reconstructDdl cmd td)] := by
  rcases Exec.runs_bind h with
    ⟨before, answer, middle, after, rfl, hx, hf⟩ | ⟨e, middle, hresult, -⟩ | ⟨middle, hresult, -⟩
  · obtain ⟨answer', rfl, hresult⟩ := Exec.runs_attempt hx
    obtain ⟨hanswer, rfl⟩ := Prod.mk.inj hresult
    cases hanswer
    cases answer with
    | error e => cases (Prod.mk.inj (Exec.runs_throw hf).2).1
    | ok td =>
        dsimp only at hf
        by_cases hstatus : td.tableStatus = "ACTIVE"
        · rw [if_neg (not_not.mpr hstatus)] at hf
          rcases Exec.runs_bind hf with
            ⟨before, ttl, middle, last, rfl, -, hlast⟩ | ⟨e, middle, hresult, -⟩ |
              ⟨middle, hresult, -⟩
          · obtain ⟨rfl, hend⟩ := Exec.runs_pure hlast
            obtain ⟨houtcome, -⟩ := Prod.mk.inj hend
            cases houtcome
            exact ⟨td, _, rfl, hstatus, rfl⟩
          · cases (Prod.mk.inj hresult).1
          · cases (Prod.mk.inj hresult).1
        · rw [if_pos hstatus] at hf
          cases (Prod.mk.inj (Exec.runs_throw hf).2).1
  · cases (Prod.mk.inj hresult).1
  · cases (Prod.mk.inj hresult).1

/-- Books, with an index of their authors. -/
def booksTable : DescribeTableOut where
  tableName := "books"
  tableStatus := "ACTIVE"
  attributeDefinitions := [⟨"isbn", .s⟩, ⟨"author", .s⟩]
  keySchema := ⟨["isbn"], []⟩
  billingModeSummary := some "PAY_PER_REQUEST"
  globalSecondaryIndexes := [
    { indexName := "by author", keySchema := ⟨["author"], ["isbn"]⟩,
      projection := ⟨.include, ["title", "year"]⟩ }]
  streamSpecificationSet := true
  streamViewType := some "KEYS_ONLY"

theorem booksTable_printable : booksTable.Printable := by decide +kernel

end DdbShell
