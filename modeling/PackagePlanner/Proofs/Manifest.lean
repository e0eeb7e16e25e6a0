import PackagePlanner.Manifest.Render
import PackagePlanner.Proofs.Catalog
import PackagePlanner.Proofs.Constraint
import PackagePlanner.Proofs.Toml.Document
import PackagePlanner.Proofs.Toml.Spelling

/-!
A written manifest is read as the manifest that it is written for.

* `item` is what the block of an entry says. `spells_blocks`: the lines of the blocks say this, and
  `entry_item`: it is read as the entry.
* `parse_render`: hence every manifest is read back.
* `parse_render_ofCatalog`: a catalog that is written and read keeps its names and its releases, and
  is the same catalog unless one of its packages has no releases.
-/

namespace PackagePlanner

namespace Manifest

open Toml (Value Members Fault Statement Item Spells)

/-! ### What a block says -/

/-- The member that a dependency is written as. -/
def dependencyMember (d : Dependency) : String × Value := (d.name, .text d.constraint.text)

/-- The value that the value of a property is written as. -/
def valueOf : PropertyValue → Value
  | .text value => .text value
  | .list values => .array (values.map .text)

/-- The member that a property is written as. -/
def propertyMember (p : Property) : String × Value := (p.key, valueOf p.value)

/-- A table that is written if it has members. -/
def sectionOf (name : String) (members : Members) : List (String × Members) :=
  if members.isEmpty then [] else [(name, members)]

/-- The dependencies of an entry, if it has some. -/
def dependencySection (r : Release) : List (String × Members) :=
  sectionOf "dependencies" (r.dependencies.toList.map dependencyMember)

/-- The properties of an entry, if it has some. -/
def propertySection (r : Release) : List (String × Members) :=
  sectionOf "properties" (r.properties.toList.map propertyMember)

/-- The item that an entry is written as. -/
def item (r : Release) : Item where
  plain := [("name", .text r.name), ("version", .text r.version.text)]
  tables := dependencySection r ++ propertySection r

lemma spells_dependencyLine (d : Dependency) :
    Spells (dependencyLine d) (Toml.assigns [dependencyMember d]) :=
  .spellLine (Toml.denotes_spellText _) _

lemma spells_propertyLine (p : Property) :
    Spells (propertyLine p) (Toml.assigns [propertyMember p]) := by
  obtain ⟨key, value | values⟩ := p
  · have hvalue := Toml.denotes_spellText value.toList
    rw [String.ofList_toList] at hvalue
    exact .spellLine hvalue key
  · have hvalues := Toml.denotes_spellTexts (values.map String.toList)
    simp only [List.map_map, Function.comp_def, String.ofList_toList] at hvalues
    exact .spellLine hvalues key

/-- A table of an entry, or nothing. -/
lemma spells_table {α : Type} {line : α → List Char} {member : α → String × Value}
    (name header : String) (hheader : ("\n" ++ header ++ "\n").toList =
      '\n' :: '[' :: (Toml.spellKey "package".toList ++ '.' ::
        (Toml.spellKey name.toList ++ [']', '\n'])))
    (h : ∀ a, Spells (line a) (Toml.assigns [member a])) (as : List α) :
    Spells (table header (as.map line))
      (Item.tableStatements "package" (sectionOf name (as.map member))) := by
  by_cases has : as = []
  · rw [has]
    exact .nil
  -- an empty line, the header, and a line for each member
  · have hlines : Spells (as.map line).flatten (Toml.assigns (as.map member)) := by
      rw [Toml.assigns, List.map_map]
      exact .flatten fun a _ => h a
    have hbegin : Spells ("\n" ++ header ++ "\n").toList [.header ⟨["package"], name⟩] := by
      rw [hheader]
      have hname := Spells.line.append (.header "package".toList name.toList)
      rwa [String.ofList_toList, String.ofList_toList] at hname
    have htable : table header (as.map line) =
        ("\n" ++ header ++ "\n").toList ++ (as.map line).flatten := by
      simp [table, has]
    have hsection : sectionOf name (as.map member) = [(name, as.map member)] := by
      simp [sectionOf, has]
    rw [htable, hsection]
    simpa [Item.tableStatements] using hbegin.append hlines

/-- The block of an entry. -/
lemma spells_block (r : Release) : Spells (block r) ((item r).statements "package") := by
  have hitem : Spells "[[package]]\n".toList [.item ⟨[], "package"⟩] := .item "package".toList
  have hname := Spells.spellLine (Toml.denotes_spellText r.name.toList) "name"
  rw [String.ofList_toList] at hname
  have hversion := Spells.spellLine (Toml.denotes_spellText r.version.chars) "version"
  have hplain := (hitem.append hname).append hversion
  have hdependencies := spells_table "dependencies" "[package.dependencies]" rfl
    spells_dependencyLine r.dependencies.toList
  have hproperties := spells_table "properties" "[package.properties]" rfl
    spells_propertyLine r.properties.toList
  have hblock := (hplain.append hdependencies).append hproperties
  have hstatements : (item r).statements "package" =
      [.item ⟨[], "package"⟩] ++ [.assign ⟨[], "name"⟩ (.text r.name)] ++
        [.assign ⟨[], "version"⟩ (.text r.version.text)] ++
        Item.tableStatements "package" (dependencySection r) ++
        Item.tableStatements "package" (propertySection r) := by
    simp [Item.statements, Item.tableStatements, Toml.assigns, item]
  rw [hstatements]
  exact hblock

lemma spells_blocks (rs : List Release) :
    Spells (blocks rs) ((rs.map item).flatMap (Item.statements "package")) := by
  match rs with
  | [] => exact .nil
  | [r] => simpa [blocks] using spells_block r
  | r :: q :: rest =>
      have hrest := Spells.line.append (spells_blocks (q :: rest))
      simpa [blocks] using (spells_block r).append hrest

lemma head?_blocks {rs : List Release} (h : rs ≠ []) : (blocks rs).head? = some '[' := by
  match rs with
  | [r] => rfl
  | r :: q :: rest => rfl

/-! ### What is read -/

lemma mapM_map_ok {α β : Type} {read : β → Except Fault α} {write : α → β} {as : List α}
    (h : ∀ a ∈ as, read (write a) = .ok a) : (as.map write).mapM read = .ok as := by
  induction as with
  | nil => rfl
  | cons a as ih =>
      obtain ⟨ha, has⟩ := List.forall_mem_cons.mp h
      rw [List.map_cons, List.mapM_cons, ha, ih has]
      rfl

lemma version_text (v : Version) : version (.text v.text) = .ok v := by
  simp [version, Value.asText, Version.parse_text, Except.mapError]

lemma constraint_text (c : Constraint) : constraint (.text c.text) = .ok c := by
  simp [constraint, Value.asText, Constraint.parse_text, Except.mapError]

lemma dependencies_table (ds : List Dependency) :
    dependencies (.table .header (ds.map dependencyMember)) = .ok ds :=
  mapM_map_ok fun d _ => by simp [dependencyMember, constraint_text, Except.map]

lemma propertyValue_valueOf (v : PropertyValue) : propertyValue (valueOf v) = .ok v := by
  cases v with
  | text value => rfl
  | list values =>
      have hvalues : (values.map Value.text).mapM Value.asText = .ok values :=
        mapM_map_ok fun _ _ => rfl
      simp [valueOf, propertyValue, Value.items?, hvalues, Except.map]

lemma properties_table (ps : List Property) :
    properties (.table .header (ps.map propertyMember)) = .ok ps :=
  mapM_map_ok fun p _ => by simp [propertyMember, propertyValue_valueOf, Except.map]

lemma foldlM_append_ok {α β : Type} {step : β → α → Except Fault β} {as bs : List α} {b c d : β}
    (h : as.foldlM step b = .ok c) (h' : bs.foldlM step c = .ok d) :
    (as ++ bs).foldlM step b = .ok d := by
  rw [List.foldlM_append, h]
  exact h'

/-- A table that is left out stands for one without members. -/
lemma foldlM_sectionOf {name : String} {members : Members} {d e : Draft}
    (hempty : members = [] → d = e)
    (hnext : d.next (name, .table .header members) = .ok e) :
    (Item.subtables (sectionOf name members)).foldlM Draft.next d = .ok e := by
  by_cases h : members = []
  · rw [h, hempty h]
    rfl
  · have hsection : sectionOf name members = [(name, members)] := by simp [sectionOf, h]
    rw [hsection, Item.subtables, List.map_singleton, List.foldlM_cons, hnext]
    rfl

/-- The fields of an entry before its tables are read. -/
def plainFields (r : Release) : Draft := { name := some r.name, version := some r.version }

lemma foldlM_plain (r : Release) : (item r).plain.foldlM Draft.next {} = .ok (plainFields r) := by
  simp only [item, List.foldlM_cons, Draft.next, Value.asText, version_text, Except.map]
  rfl

/-- The fields of an entry are read from its item. -/
lemma foldlM_members (r : Release) :
    (item r).members.foldlM Draft.next {} =
      .ok { plainFields r with
        dependencies := r.dependencies.toList, properties := r.properties.toList } := by
  have hdependencies := @foldlM_sectionOf "dependencies"
    (r.dependencies.toList.map dependencyMember) (plainFields r)
    { plainFields r with dependencies := r.dependencies.toList }
    (fun h => by simp [plainFields, List.map_eq_nil_iff.mp h])
    (by simp [Draft.next, dependencies_table, Except.map])
  have hproperties := @foldlM_sectionOf "properties" (r.properties.toList.map propertyMember)
    { plainFields r with dependencies := r.dependencies.toList }
    { plainFields r with
      dependencies := r.dependencies.toList, properties := r.properties.toList }
    (fun h => by simp [plainFields, List.map_eq_nil_iff.mp h])
    (by simp [Draft.next, properties_table, Except.map])
  have htables : Item.subtables (item r).tables =
      Item.subtables (dependencySection r) ++ Item.subtables (propertySection r) :=
    List.map_append
  rw [Item.members, htables]
  exact foldlM_append_ok (foldlM_plain r) (foldlM_append_ok hdependencies hproperties)

theorem entry_item (r : Release) : entry (.table .header (item r).members) = .ok r := by
  have hentry : entry (.table .header (item r).members) = entryOfMembers (item r).members := rfl
  rw [hentry, entryOfMembers, foldlM_members]
  show Except.ok (release r.name r.version r.dependencies.toList r.properties.toList) = .ok r
  rw [release, Keyed.ofList_toList, Ascending.ofList_toList]

lemma map_fst_sectionOf (name : String) (members : Members) :
    (Item.subtables (sectionOf name members)).map Prod.fst = [] ∨
      (Item.subtables (sectionOf name members)).map Prod.fst = [name] := by
  rw [sectionOf]
  split
  · exact .inl rfl
  · exact .inr rfl

lemma eq_of_mem_sectionOf {name : String} {members : Members} {t : String × Members}
    (h : t ∈ sectionOf name members) : t.2 = members := by
  rw [sectionOf] at h
  split at h
  · exact absurd h List.not_mem_nil
  · rw [List.mem_singleton.mp h]

/-- The keys of an item are distinct, as the names of dependencies and the keys of properties
are. -/
lemma distinct_item (r : Release) : (item r).Distinct := by
  refine ⟨?_, fun t ht => ?_⟩
  · have hkeys : (item r).members.map Prod.fst = ["name", "version"] ++
        ((Item.subtables (dependencySection r)).map Prod.fst ++
          (Item.subtables (propertySection r)).map Prod.fst) := by
      simp [Item.members, Item.subtables, item]
    rw [hkeys]
    have hdependencies := map_fst_sectionOf "dependencies"
      (r.dependencies.toList.map dependencyMember)
    have hproperties := map_fst_sectionOf "properties" (r.properties.toList.map propertyMember)
    rw [dependencySection, propertySection]
    rcases hdependencies with h | h <;> rcases hproperties with h' | h' <;> rw [h, h'] <;> decide
  · rcases List.mem_append.mp ht with ht | ht
    · rw [eq_of_mem_sectionOf ht, List.map_map]
      exact r.dependencies.nodup
    · rw [eq_of_mem_sectionOf ht, List.map_map]
      exact r.properties.nodup

/-- A document that lists entries is read as a manifest of these. -/
lemma ofMembers_tables (rs : List Release) :
    ofMembers [("package", .tables ((rs.map item).map Item.members))] = .ok ⟨rs⟩ := by
  have hread : ofMembers [("package", .tables ((rs.map item).map Item.members))] =
      ((((rs.map item).map Item.members).map (.table .header)).mapM entry).map Manifest.mk := rfl
  have hentries : (rs.map fun r => .table .header (item r).members).mapM entry = .ok rs :=
    mapM_map_ok fun r _ => entry_item r
  rw [hread, List.map_map, List.map_map]
  exact congrArg (Except.map Manifest.mk) hentries

lemma parse_of_spells {s : String} {ss : List Statement} {members : Members}
    (h : Spells s.toList ss) (hmark : s.toList.head? ≠ some '\ufeff')
    (hmembers : Toml.document? ss = some members) : parse s = ofMembers members := by
  rw [parse, Toml.parse, Toml.read?_of_spells h hmark, hmembers]

/-- What is written for a manifest is read as it. -/
theorem parse_render (m : Manifest) : parse m.render = .ok m := by
  obtain ⟨rs⟩ := m
  by_cases hrs : rs = []
  · have hline : Spells "package = []\n".toList [.assign ⟨[], "package"⟩ (.array [])] :=
      .spellLine (Toml.denotes_spellTexts []) "package"
    rw [render, if_pos (by simpa using hrs), parse_of_spells hline (by decide) rfl, hrs]
    rfl
  · have hdocument : Toml.document? ((rs.map item).flatMap (Item.statements "package")) =
        some [("package", .tables ((rs.map item).map Item.members))] := by
      have hitems : ∀ i ∈ rs.map item, i.Distinct := fun i hi => by
        obtain ⟨r, _, rfl⟩ := List.mem_map.mp hi
        exact distinct_item r
      rw [Toml.document?_items hitems, Item.document, if_neg (by simpa using hrs)]
    rw [render, if_neg (by simpa using hrs), parse_of_spells _ _ hdocument, ofMembers_tables]
    · rw [String.toList_ofList]
      exact spells_blocks rs
    · rw [String.toList_ofList, head?_blocks hrs]
      decide

/-! ### Catalogs -/

/-- A catalog that is written and read again has the same packages in the same order, with the same
releases. It is the same catalog unless a package lost all its releases, for such a package is not
written. -/
theorem parse_render_ofCatalog (c : Catalog) :
    ∃ m, parse (ofCatalog c).render = .ok m ∧
      (m.catalog c.kind).kind = c.kind ∧
      (m.catalog c.kind).names = c.names ∧
      (m.catalog c.kind).releases = c.releases ∧
      (m.catalog c.kind = c ↔ ∀ p ∈ c.packages.toList, p.isEmpty = false) := by
  refine ⟨ofCatalog c, parse_render _, ?_, ?_, ?_, ?_⟩
  · exact Catalog.kind_ofReleases _ _
  · exact Catalog.names_ofReleases c
  · exact Catalog.releases_ofReleases c
  · exact Catalog.ofReleases_releases_eq_iff

end Manifest

end PackagePlanner
