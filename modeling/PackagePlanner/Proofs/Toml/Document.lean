import PackagePlanner.Toml.Document
import PackagePlanner.Proofs.Collection

/-!
The tables that the statements of a document build.

* `LeadsTo`: headers that lead to a table inside a document, whatever that table holds. A change of
  the table is then a change of the document.
* `foldlM_assigns`: lines with new keys add these to the table that they stand in, in their order.
* `Item` is an item of an array of tables, with tables of its own. `document?_items`: a document
  that lists items builds the array of what they hold.
-/

namespace PackagePlanner.Toml

/-! ### Members -/

namespace Members

lemma find?_eq_none_iff {t : Members} {key : String} :
    t.find? key = none ↔ ∀ m ∈ t, m.1 ≠ key := by
  simp [find?, List.find?_eq_none]

/-- Of distinct keys, none comes before its place. -/
lemma find?_eq_none_of_nodup {t more : Members} {m : String × Value}
    (h : ((t ++ m :: more).map Prod.fst).Nodup) : t.find? m.1 = none :=
  find?_eq_none_iff.mpr (forall_ne_of_nodup_map h)

lemma find?_append_self {t : Members} {key : String} (h : t.find? key = none) (v : Value) :
    find? (t ++ [(key, v)]) key = some v := by
  have hnone : List.find? (fun m => m.1 == key) t = none := by simpa [find?] using h
  simp [find?, List.find?_append, hnone]

lemma set_append_self {t : Members} {key : String} (h : t.find? key = none) (v w : Value) :
    set (t ++ [(key, v)]) key w = t ++ [(key, w)] := by
  have hkeep : t.map (fun m => if m.1 == key then (key, w) else m) = t := by
    conv_rhs => rw [← List.map_id t]
    exact List.map_congr_left fun m hm => if_neg (by simpa using find?_eq_none_iff.mp h m hm)
  rw [set, List.map_append, hkeep]
  simp

end Members

lemma changeLast?_append (change : Members → Option Members) (items : List Members) (t : Members) :
    changeLast? change (items ++ [t]) = (change t).map fun t => items ++ [t] := by
  induction items with
  | nil => rfl
  | cons item items ih =>
      -- an item with others behind it stays
      have hcons : changeLast? change (item :: (items ++ [t])) =
          (changeLast? change (items ++ [t])).map (item :: ·) := by
        have hne : items ++ [t] ≠ [] := List.append_ne_nil_of_right_ne_nil _ (List.cons_ne_nil t [])
        obtain ⟨second, rest, h⟩ := List.exists_cons_of_ne_nil hne
        rw [h]
        rfl
      rw [List.cons_append, hcons, ih, Option.map_map]
      rfl

/-! ### Tables inside a document -/

lemma within?_append (change : Members → Option Members) (t : Members)
    (headers more : List String) :
    within? change t (headers ++ more) = within? (fun t => within? change t more) t headers := by
  induction headers generalizing t with
  | nil => rfl
  | cons p headers ih => simp only [List.cons_append, within?, ih]

/-- Headers that lead to a table inside a document: `around` puts the table in its place. -/
def LeadsTo (headers : List String) (around : Members → Members) : Prop :=
  ∀ change t, within? change (around t) headers = (change t).map around

namespace LeadsTo

lemma trans {headers more : List String} {around inside : Members → Members}
    (h : LeadsTo headers around) (h' : LeadsTo more inside) :
    LeadsTo (headers ++ more) (around ∘ inside) := fun change t => by
  rw [within?_append, Function.comp_apply, h, h', Option.map_map]

/-- To the last item of an array of tables. -/
lemma item (key : String) (items : List Members) :
    LeadsTo [key] fun t => [(key, .tables (items ++ [t]))] := by
  intro change t
  have hfind : Members.find? [(key, .tables (items ++ [t]))] key =
      some (.tables (items ++ [t])) := by simp [Members.find?]
  rw [within?, hfind]
  simp only [within?, changeLast?_append, Option.map_map]
  exact congrArg (Option.map · (change t)) (funext fun t => by simp [Members.set])

/-- To the last table of a table. -/
lemma table {before : Members} {name : String} (h : before.find? name = none) :
    LeadsTo [name] fun t => before ++ [(name, .table .header t)] := by
  intro change t
  rw [within?, Members.find?_append_self h]
  simp only [within?]
  exact congrArg (Option.map · (change t)) (funext fun t => Members.set_append_self h _ _)

end LeadsTo

/-! ### Lines of a table -/

/-- A line for each member of a table. -/
def assigns (members : Members) : List Statement :=
  members.map fun m => .assign ⟨[], m.1⟩ m.2

section

variable {headers : List String} {around : Members → Members} {t : Members}

/-- A line with a new key. -/
lemma next?_assign (h : LeadsTo headers around) {m : String × Value} (hnew : t.find? m.1 = none) :
    Draft.next? ⟨around t, headers⟩ (.assign ⟨[], m.1⟩ m.2) =
      some ⟨around (t ++ [m]), headers⟩ := by
  rw [Draft.next?, h]
  simp [assign?, Members.add?, hnew]

/-- A header with a new name begins a table, wherever the lines before it went. -/
lemma next?_header (h : LeadsTo headers around) {name : String} (hnew : t.find? name = none)
    (current : List String) :
    Draft.next? ⟨around t, current⟩ (.header ⟨headers, name⟩) =
      some ⟨around (t ++ [(name, .table .header [])]), headers ++ [name]⟩ := by
  rw [Draft.next?, h]
  simp [open?, hnew, Path.names]

/-- Lines with new keys add these to the table that they stand in. -/
theorem foldlM_assigns (h : LeadsTo headers around) {members : Members}
    (hkeys : ((t ++ members).map Prod.fst).Nodup) :
    (assigns members).foldlM Draft.next? ⟨around t, headers⟩ =
      some ⟨around (t ++ members), headers⟩ := by
  induction members generalizing t with
  | nil => simp [assigns]
  | cons m members ih =>
      have hnext := next?_assign h (Members.find?_eq_none_of_nodup hkeys)
      have hrest := ih (t := t ++ [m]) (by simpa using hkeys)
      rw [List.append_assoc, List.singleton_append] at hrest
      rw [assigns, List.map_cons, List.foldlM_cons, hnext]
      exact hrest

/-- A header and the lines below it. -/
lemma foldlM_table (h : LeadsTo headers around) {name : String} (hnew : t.find? name = none)
    {members : Members} (hkeys : (members.map Prod.fst).Nodup) (current : List String) :
    (Statement.header ⟨headers, name⟩ :: assigns members).foldlM Draft.next? ⟨around t, current⟩ =
      some ⟨around (t ++ [(name, .table .header members)]), headers ++ [name]⟩ := by
  rw [List.foldlM_cons, next?_header h hnew, Option.bind_eq_bind, Option.bind_some]
  exact foldlM_assigns (h.trans (.table hnew)) (t := []) hkeys

end

/-! ### Arrays of tables -/

/-- An item of an array of tables: plain members, and then tables of plain members. -/
structure Item where
  plain : Members
  tables : List (String × Members)

namespace Item

/-- The tables of an item as its members. -/
def subtables (tables : List (String × Members)) : Members :=
  tables.map fun t => (t.1, .table .header t.2)

/-- What an item holds. -/
def members (item : Item) : Members := item.plain ++ subtables item.tables

/-- The lines of the tables of an item. -/
def tableStatements (key : String) (tables : List (String × Members)) : List Statement :=
  tables.flatMap fun t => .header ⟨[key], t.1⟩ :: assigns t.2

/-- The lines of an item. -/
def statements (key : String) (item : Item) : List Statement :=
  .item ⟨[], key⟩ :: (assigns item.plain ++ tableStatements key item.tables)

/-- No two keys of an item are the same, and no two keys of a table in it. -/
structure Distinct (item : Item) : Prop where
  members : (item.members.map Prod.fst).Nodup
  tables : ∀ t ∈ item.tables, (t.2.map Prod.fst).Nodup

/-- Tables with new names are added to the table that their headers name. -/
lemma foldlM_tableStatements {key : String} {around : Members → Members} {t : Members}
    {tables : List (String × Members)} (h : LeadsTo [key] around)
    (hnames : ((t ++ subtables tables).map Prod.fst).Nodup)
    (hkeys : ∀ sub ∈ tables, (sub.2.map Prod.fst).Nodup) (current : List String) :
    ∃ last, (tableStatements key tables).foldlM Draft.next? ⟨around t, current⟩ =
      some ⟨around (t ++ subtables tables), last⟩ := by
  induction tables generalizing t current with
  | nil => exact ⟨current, by simp [tableStatements, subtables]⟩
  | cons sub tables ih =>
      obtain ⟨name, members⟩ := sub
      have hnew : t.find? name = none :=
        Members.find?_eq_none_of_nodup (m := (name, .table .header members)) hnames
      -- a header names its table from the root on, wherever the lines before it went
      have htable := foldlM_table h hnew (List.forall_mem_cons.mp hkeys).1 current
      obtain ⟨last, hrest⟩ := ih (t := t ++ [(name, .table .header members)])
        (by simpa [subtables] using hnames) (List.forall_mem_cons.mp hkeys).2 [key, name]
      rw [List.append_assoc, List.singleton_append] at hrest
      refine ⟨last, ?_⟩
      rw [tableStatements, List.flatMap_cons, List.foldlM_append, htable]
      exact hrest

/-- A document that holds an array of tables, and nothing before its first item. -/
def document (key : String) (items : List Members) : Members :=
  if items = [] then [] else [(key, .tables items)]

lemma next?_item (key : String) (items : List Members) (current : List String) :
    Draft.next? ⟨document key items, current⟩ (.item ⟨[], key⟩) =
      some ⟨[(key, .tables (items ++ [[]]))], [key]⟩ := by
  by_cases h : items = []
  · simp [Draft.next?, document, within?, push?, Members.find?, Path.names, h]
  · simp [Draft.next?, document, within?, push?, Members.find?, Members.set, Path.names, h]

/-- The lines of an item add it to the array. -/
lemma foldlM_statements {key : String} {item : Item} (h : item.Distinct) (items : List Members)
    (current : List String) :
    ∃ last, (item.statements key).foldlM Draft.next? ⟨document key items, current⟩ =
      some ⟨document key (items ++ [item.members]), last⟩ := by
  have hkeys : (item.plain.map Prod.fst).Nodup :=
    List.Nodup.sublist ((List.sublist_append_left _ _).map _) h.members
  have hplain := foldlM_assigns (LeadsTo.item key items) (t := []) hkeys
  obtain ⟨last, htables⟩ := foldlM_tableStatements (LeadsTo.item key items) (t := item.plain)
    h.members h.tables [key]
  refine ⟨last, ?_⟩
  rw [statements, List.foldlM_cons, next?_item, Option.bind_eq_bind, Option.bind_some,
    List.foldlM_append, hplain, document, if_neg (by simp)]
  exact htables

lemma foldlM_flatMap_statements {key : String} {items : List Item}
    (h : ∀ item ∈ items, item.Distinct) (before : List Members) (current : List String) :
    ∃ last, (items.flatMap (statements key)).foldlM Draft.next? ⟨document key before, current⟩ =
      some ⟨document key (before ++ items.map members), last⟩ := by
  induction items generalizing before current with
  | nil => exact ⟨current, by simp⟩
  | cons item items ih =>
      obtain ⟨hitem, hitems⟩ := List.forall_mem_cons.mp h
      obtain ⟨next, hfirst⟩ := foldlM_statements hitem before current
      obtain ⟨last, hrest⟩ := ih hitems (before ++ [item.members]) next
      rw [List.append_assoc, List.singleton_append] at hrest
      refine ⟨last, ?_⟩
      rw [List.flatMap_cons, List.foldlM_append, hfirst]
      exact hrest

end Item

/-- A document that lists items builds the array of what they hold. -/
theorem document?_items {key : String} {items : List Item} (h : ∀ item ∈ items, item.Distinct) :
    document? (items.flatMap (Item.statements key)) =
      some (Item.document key (items.map Item.members)) := by
  obtain ⟨last, hall⟩ := Item.foldlM_flatMap_statements h [] []
  have hstart : Item.document key [] = [] := rfl
  rw [hstart, List.nil_append] at hall
  rw [document?, hall, Option.map_some]

end PackagePlanner.Toml
