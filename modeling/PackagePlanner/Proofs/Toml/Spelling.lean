import PackagePlanner.Proofs.Toml.Quoted

/-!
Keys, values and lines are read as they are written.

* `name?_spellKey`, `value_spellText` and `denotes_spellTexts`: a key, a text and an array of texts
  are read as what they are written for.
* `Spells`: characters that are read as some statements, whatever follows them. Lines and blank
  lines spell one statement and none, and what is written one after another spells all
  (`Spells.append`); `read?_of_spells` reads a whole document.
-/

namespace PackagePlanner.Toml

/-! ### Blanks -/

lemma skipSpaces_of_not_isSpace {c : Char} (h : isSpace c = false) (rest : List Char) :
    skipSpaces (c :: rest) = c :: rest := by
  rw [skipSpaces, List.dropWhile_cons_of_neg (by simp [h])]

lemma skipSpaces_space (rest : List Char) : skipSpaces (' ' :: rest) = skipSpaces rest := by
  rw [skipSpaces, List.dropWhile_cons_of_pos (by decide), skipSpaces]

/-- A character with which a key or a value begins. -/
def IsFirst (c : Char) : Prop := isSpace c = false ∧ c ≠ '\n' ∧ c ≠ '\r' ∧ c ≠ '#'

/-- A text that begins with such a character. -/
def Begins (cs : List Char) : Prop := ∃ c more, cs = c :: more ∧ IsFirst c

lemma Begins.skipSpaces {cs : List Char} (h : Begins cs) (rest : List Char) :
    Toml.skipSpaces (cs ++ rest) = cs ++ rest := by
  obtain ⟨c, more, rfl, hspace, _⟩ := h
  exact skipSpaces_of_not_isSpace hspace _

lemma Begins.skipLines {cs : List Char} (h : Begins cs) (rest : List Char) :
    Toml.skipLines false (cs ++ rest) = cs ++ rest := by
  obtain ⟨c, more, rfl, hspace, hline, hreturn, hcomment⟩ := h
  simp [Toml.skipLines, *]

lemma lineEnd?_line (rest : List Char) : lineEnd? ('\n' :: rest) = some rest := by
  simp [lineEnd?, skipSpaces_of_not_isSpace (show isSpace '\n' = false by decide)]

/-! ### Keys -/

lemma span_append {test : Char → Bool} {cs rest : List Char} (hcs : ∀ c ∈ cs, test c = true)
    (hrest : ∀ c ∈ rest.head?, test c = false) : (cs ++ rest).span test = (cs, rest) := by
  rw [List.span_eq_takeWhile_dropWhile, List.takeWhile_append_of_pos hcs,
    List.dropWhile_append_of_pos hcs]
  cases rest with
  | nil => simp
  | cons c more =>
      have hc : ¬ test c = true := by simpa using hrest c rfl
      rw [List.takeWhile_cons_of_neg hc, List.dropWhile_cons_of_neg hc, List.append_nil]

lemma isBare_ne {c : Char} (h : isBare c = true) (d : Char) (hd : isBare d = false) : c ≠ d := by
  rintro rfl
  rw [h] at hd
  simp at hd

/-- What is written for a key is read as it, unless a bare character follows. -/
theorem name?_spellKey {cs rest : List Char} (hrest : ∀ c ∈ rest.head?, isBare c = false) :
    name? (spellKey cs ++ rest) = some (String.ofList cs, rest) := by
  rw [spellKey]
  split
  · rename_i h
    have hbare := List.all_eq_true.mp h.2
    obtain ⟨c, ds, rfl⟩ := List.exists_cons_of_ne_nil h.1
    have hc := isBare_ne (hbare c List.mem_cons_self)
    have hspan := span_append hbare hrest
    rw [List.cons_append] at hspan ⊢
    rw [name?, hspan]
    · exact fun _ heq => hc '"' (by decide) (List.cons.inj heq).1
    · exact fun _ heq => hc '\'' (by decide) (List.cons.inj heq).1
  · split
    · rename_i h
      simp [name?, basic_flatMap (glyph_of_all h)]
    · split
      · rename_i h
        simp [name?, literal_append (isText_of_all h)]
      · simp [name?, basic_flatMap fun c (_ : c ∈ cs) => glyph_escapeChar c]

lemma isFirst_of_isBare {c : Char} (h : isBare c = true) : IsFirst c := by
  have hne := isBare_ne h
  refine ⟨?_, hne '\n' (by decide), hne '\r' (by decide), hne '#' (by decide)⟩
  simp [isSpace, hne ' ' (by decide), hne '\t' (by decide)]

/-- A key begins with a bare character or with a quote. -/
lemma spellKey_eq_cons (cs : List Char) :
    ∃ c more, spellKey cs = c :: more ∧ (isBare c = true ∨ c = '"' ∨ c = '\'') := by
  rw [spellKey]
  split
  · rename_i h
    obtain ⟨c, ds, rfl⟩ := List.exists_cons_of_ne_nil h.1
    exact ⟨c, ds, rfl, .inl (List.all_eq_true.mp h.2 c List.mem_cons_self)⟩
  · split
    · exact ⟨_, _, rfl, .inr (.inl rfl)⟩
    · split
      · exact ⟨_, _, rfl, .inr (.inr rfl)⟩
      · exact ⟨_, _, rfl, .inr (.inl rfl)⟩

lemma begins_spellKey (cs : List Char) : Begins (spellKey cs) := by
  obtain ⟨c, more, h, hbare | rfl | rfl⟩ := spellKey_eq_cons cs
  · exact ⟨c, more, h, isFirst_of_isBare hbare⟩
  · exact ⟨_, more, h, by decide, by decide, by decide, by decide⟩
  · exact ⟨_, more, h, by decide, by decide, by decide, by decide⟩

/-- A key is no header. -/
lemma spellKey_ne_bracket (cs : List Char) : ∃ c more, spellKey cs = c :: more ∧ c ≠ '[' := by
  obtain ⟨c, more, h, hbare | rfl | rfl⟩ := spellKey_eq_cons cs
  · exact ⟨c, more, h, isBare_ne hbare _ (by decide)⟩
  · exact ⟨_, more, h, by decide⟩
  · exact ⟨_, more, h, by decide⟩

/-- The last name of a key. -/
lemma names?_spellKey {n : Nat} {cs rest : List Char} (hrest : ∀ c ∈ rest.head?, isBare c = false)
    (hdot : ∀ more, skipSpaces rest ≠ '.' :: more) :
    names? (n + 1) (spellKey cs ++ rest) = some (⟨[], String.ofList cs⟩, skipSpaces rest) := by
  rw [names?, (begins_spellKey cs).skipSpaces, name?_spellKey hrest]
  simp only

/-- A name of a key before others. -/
lemma names?_spellKey_dot {n : Nat} {cs more : List Char} :
    names? (n + 1) (spellKey cs ++ '.' :: more) =
      (names? n more).map fun (p, rest) => (⟨String.ofList cs :: p.parents, p.name⟩, rest) := by
  rw [names?, (begins_spellKey cs).skipSpaces, name?_spellKey (by simp [isBare])]
  simp [skipSpaces_of_not_isSpace (show isSpace '.' = false by decide)]

/-! ### Values -/

/-- Characters that are read as a value, whatever value they are part of. -/
def Denotes (cs : List Char) (v : Value) : Prop :=
  Begins cs ∧ ∀ n rest, (∀ c ∈ rest.head?, c ≠ '"' ∧ c ≠ '\'') →
    value (n + 1) (cs ++ rest) = some (v, rest)

lemma spellText_eq_cons (cs : List Char) :
    ∃ c more, spellText cs = c :: more ∧ (c = '"' ∨ c = '\'') := by
  rw [spellText]
  split
  · exact ⟨_, _, rfl, .inl rfl⟩
  · split
    · exact ⟨_, _, rfl, .inr rfl⟩
    · split
      · exact ⟨_, _, rfl, .inl rfl⟩
      · split
        · exact ⟨_, _, rfl, .inr rfl⟩
        · split
          · exact ⟨_, _, rfl, .inl rfl⟩
          · exact ⟨_, _, rfl, .inl rfl⟩

lemma begins_spellText (cs : List Char) : Begins (spellText cs) := by
  obtain ⟨c, more, h, rfl | rfl⟩ := spellText_eq_cons cs
  · exact ⟨_, more, h, by decide, by decide, by decide, by decide⟩
  · exact ⟨_, more, h, by decide, by decide, by decide, by decide⟩

/-- What is written for a text is read as it, at any depth. -/
theorem value_spellText {cs rest : List Char} (n : Nat)
    (hrest : ∀ c ∈ rest.head?, c ≠ '"' ∧ c ≠ '\'') :
    value n (spellText cs ++ rest) = some (.text (String.ofList cs), rest) := by
  have hquoted : quoted? (spellText cs ++ rest) = some (cs, rest) :=
    quoted?_spellText (fun h => (hrest _ h).1 rfl) fun h => (hrest _ h).2 rfl
  obtain ⟨c, more, h, rfl | rfl⟩ := spellText_eq_cons cs
  · rw [h, List.cons_append] at hquoted ⊢
    cases n <;> simp [value, scalar?, hquoted]
  · rw [h, List.cons_append] at hquoted ⊢
    cases n <;> simp [value, scalar?, hquoted]

lemma denotes_spellText (cs : List Char) : Denotes (spellText cs) (.text (String.ofList cs)) :=
  ⟨begins_spellText cs, fun _ _ => value_spellText _⟩

/-- A text of an array, before a comma. -/
lemma items?_comma {depth n : Nat} {before text more : List Char}
    (h : skipLines false before = spellText text ++ ',' :: more) :
    items? (value depth) (n + 1) before =
      (items? (value depth) n more).map fun (vs, rest) =>
        (.text (String.ofList text) :: vs, rest) := by
  have hread : value depth (spellText text ++ ',' :: more) =
      some (.text (String.ofList text), ',' :: more) := value_spellText depth (by simp)
  have hcomma : skipLines false (',' :: more) = ',' :: more := by simp [skipLines, isSpace]
  rw [items?, h]
  obtain ⟨c, tail, hspell, rfl | rfl⟩ := spellText_eq_cons text <;>
    rw [hspell, List.cons_append] at hread ⊢ <;>
    simp [hread, hcomma]

/-- The last text of an array, before its bracket. -/
lemma items?_bracket {depth n : Nat} {text rest : List Char} :
    items? (value depth) (n + 1) (spellText text ++ ']' :: rest) =
      some ([.text (String.ofList text)], rest) := by
  have hread : value depth (spellText text ++ ']' :: rest) =
      some (.text (String.ofList text), ']' :: rest) := value_spellText depth (by simp)
  have hend : skipLines false (']' :: rest) = ']' :: rest := by simp [skipLines, isSpace]
  rw [items?, (begins_spellText text).skipLines]
  obtain ⟨c, tail, hspell, rfl | rfl⟩ := spellText_eq_cons text <;>
    rw [hspell, List.cons_append] at hread ⊢ <;>
    simp [hread, hend]

/-- The line of a text in an array. -/
def itemLine (text : List Char) : List Char := [' ', ' ', ' ', ' '] ++ spellText text ++ [',', '\n']

lemma length_le_lines (texts : List (List Char)) :
    texts.length ≤ (texts.flatMap itemLine).length := by
  induction texts with
  | nil => simp
  | cons text texts ih =>
      rw [List.flatMap_cons, List.length_append, List.length_cons]
      have hline : 1 ≤ (itemLine text).length := by simp [itemLine]
      omega

/-- The lines of an array of several texts. -/
lemma items?_lines {texts : List (List Char)} {n depth : Nat} {rest : List Char}
    (h : texts.length < n) :
    items? (value depth) n ('\n' :: (texts.flatMap itemLine ++ ']' :: rest)) =
      some (texts.map fun text => .text (String.ofList text), rest) := by
  induction texts generalizing n with
  | nil =>
      obtain ⟨n, rfl⟩ := Nat.exists_eq_add_of_lt h
      simp [items?, skipLines, isSpace]
  | cons text texts ih =>
      obtain ⟨n, rfl⟩ := Nat.exists_eq_succ_of_ne_zero (Nat.ne_zero_of_lt h)
      have hskip : skipLines false ('\n' :: ((text :: texts).flatMap itemLine ++ ']' :: rest)) =
          spellText text ++ ',' :: '\n' :: (texts.flatMap itemLine ++ ']' :: rest) := by
        have hspaces (more : List Char) :
            skipLines false ('\n' :: ' ' :: ' ' :: ' ' :: ' ' :: more) = skipLines false more := by
          simp [skipLines, isSpace]
        calc skipLines false ('\n' :: ((text :: texts).flatMap itemLine ++ ']' :: rest))
            = skipLines false ('\n' :: ' ' :: ' ' :: ' ' :: ' ' :: (spellText text ++
                ',' :: '\n' :: (texts.flatMap itemLine ++ ']' :: rest))) := by simp [itemLine]
          _ = _ := by rw [hspaces, (begins_spellText text).skipLines]
      rw [items?_comma hskip, ih (by simpa using h)]
      rfl

lemma value_bracket {n : Nat} {cs rest : List Char} {items : List Value}
    (h : items? (value n) cs.length cs = some (items, rest)) :
    value (n + 1) ('[' :: cs) = some (.array items, rest) := by
  rw [value, h]
  rfl

lemma begins_bracket (cs : List Char) : Begins ('[' :: cs) :=
  ⟨_, cs, rfl, by decide, by decide, by decide, by decide⟩

/-- What is written for an array of texts is read as it. -/
theorem denotes_spellTexts (texts : List (List Char)) :
    Denotes (spellTexts texts) (.array (texts.map fun text => .text (String.ofList text))) := by
  match texts with
  | [] =>
      refine ⟨begins_bracket _, fun n rest _ => value_bracket ?_⟩
      simp [items?, skipLines, isSpace]
  | [text] =>
      refine ⟨begins_bracket _, fun n rest _ => value_bracket ?_⟩
      rw [List.append_eq, List.append_assoc, List.singleton_append, List.length_append,
        List.length_cons, ← Nat.add_assoc, items?_bracket]
      rfl
  | text₁ :: text₂ :: texts =>
      refine ⟨begins_bracket _, fun n rest _ => ?_⟩
      have hspell : spellTexts (text₁ :: text₂ :: texts) ++ rest =
          '[' :: '\n' :: ((text₁ :: text₂ :: texts).flatMap itemLine ++ ']' :: rest) := by
        have hlines : spellTexts (text₁ :: text₂ :: texts) =
            ['[', '\n'] ++ (text₁ :: text₂ :: texts).flatMap itemLine ++ [']'] := rfl
        rw [hlines]
        simp
      rw [hspell]
      refine value_bracket (items?_lines ?_)
      have hlength := length_le_lines (text₁ :: text₂ :: texts)
      simp only [List.length_cons, List.length_append] at hlength ⊢
      omega

/-! ### Lines -/

/-- A key and its value in a line. -/
lemma pair?_spellLine {cs : List Char} {v : Value} (h : Denotes cs v) (key : String)
    (rest : List Char) :
    pair? (value (limit - 1)) (spellLine key cs ++ rest) = some ((⟨[], key⟩, v), '\n' :: rest) := by
  obtain ⟨hbegins, hread⟩ := h
  have hline : spellLine key cs ++ rest =
      spellKey key.toList ++ ' ' :: '=' :: ' ' :: (cs ++ '\n' :: rest) := by
    simp [spellLine]
  have hequals : skipSpaces (' ' :: '=' :: ' ' :: (cs ++ '\n' :: rest)) =
      '=' :: ' ' :: (cs ++ '\n' :: rest) := by
    rw [skipSpaces_space, skipSpaces_of_not_isSpace (by decide)]
  have hpath : path? (spellLine key cs ++ rest) =
      some (⟨[], key⟩, '=' :: ' ' :: (cs ++ '\n' :: rest)) := by
    rw [hline, path?, show limit - 1 = 78 + 1 from rfl, names?_spellKey (by simp [isBare])]
    · rw [hequals, String.ofList_toList]
    · simp [hequals]
  rw [pair?, hpath]
  simp only [skipSpaces_space, hbegins.skipSpaces]
  rw [show limit - 1 = 78 + 1 from rfl, hread 78 _ (by simp)]
  rfl

/-- A line with a key and its value. -/
theorem statement?_spellLine {cs : List Char} {v : Value} (h : Denotes cs v) (key : String)
    (rest : List Char) :
    statement? (spellLine key cs ++ rest) = some (.assign ⟨[], key⟩ v, rest) := by
  have hpair := pair?_spellLine h key rest
  obtain ⟨c, more, hkey, hbracket⟩ := spellKey_ne_bracket key.toList
  rw [spellLine, hkey] at hpair ⊢
  simp only [List.cons_append] at hpair ⊢
  generalize more ++ [' ', '=', ' '] ++ cs ++ ['\n'] ++ rest = tail at hpair ⊢
  simp [statement?, lineEnd?_line, *]

/-- A name before a bracket. -/
lemma names?_bracket (n : Nat) (cs rest : List Char) :
    names? (n + 1) (spellKey cs ++ ']' :: rest) = some (⟨[], String.ofList cs⟩, ']' :: rest) := by
  have hskip : skipSpaces (']' :: rest) = ']' :: rest := skipSpaces_of_not_isSpace (by decide) _
  rw [names?_spellKey (by simp [isBare]) (by simp [hskip]), hskip]

/-- The header of an item of an array of tables. -/
lemma statement?_item (cs rest : List Char) :
    statement? ('[' :: '[' :: (spellKey cs ++ [']', ']', '\n']) ++ rest) =
      some (.item ⟨[], String.ofList cs⟩, rest) := by
  have hpath : path? (spellKey cs ++ ']' :: ']' :: '\n' :: rest) =
      some (⟨[], String.ofList cs⟩, ']' :: ']' :: '\n' :: rest) := names?_bracket _ _ _
  simp [statement?, hpath, lineEnd?_line]

/-- The header of a table in another one. -/
lemma statement?_header (parent cs rest : List Char) :
    statement? ('[' :: (spellKey parent ++ '.' :: (spellKey cs ++ [']', '\n'])) ++ rest) =
      some (.header ⟨[String.ofList parent], String.ofList cs⟩, rest) := by
  have hpath : path? (spellKey parent ++ '.' :: (spellKey cs ++ ']' :: '\n' :: rest)) =
      some (⟨[String.ofList parent], String.ofList cs⟩, ']' :: '\n' :: rest) := by
    rw [path?, show limit - 1 = 77 + 1 + 1 from rfl, names?_spellKey_dot, names?_bracket]
    rfl
  obtain ⟨c, more, hkey, hbracket⟩ := spellKey_ne_bracket parent
  rw [hkey] at hpath ⊢
  simp only [List.cons_append, List.append_assoc, List.nil_append] at hpath ⊢
  simp [statement?, lineEnd?_line, *]

/-! ### Documents -/

lemma statements?_congr {cs ds : List Char} (h : skipLines false cs = skipLines false ds)
    (n : Nat) : statements? n cs = statements? n ds := by
  rw [statements?, statements?, h]

lemma statements?_cons {cs rest : List Char} {s : Statement} (hbegins : Begins cs)
    (h : statement? cs = some (s, rest)) (n : Nat) :
    statements? (n + 1) cs = (statements? n rest).map (s :: ·) := by
  have hskip := hbegins.skipLines []
  rw [List.append_nil] at hskip
  obtain ⟨c, more, rfl, _⟩ := hbegins
  rw [statements?, hskip]
  simp only [h]

/-- Characters that are read as some statements, whatever follows them. -/
def Spells (cs : List Char) (ss : List Statement) : Prop :=
  ss.length ≤ cs.length ∧ ∀ n rest,
    statements? (n + ss.length) (cs ++ rest) = (statements? n rest).map (ss ++ ·)

namespace Spells

lemma nil : Spells [] [] := ⟨le_rfl, fun n rest => by simp⟩

lemma append {cs ds : List Char} {ss ts : List Statement} (h : Spells cs ss) (h' : Spells ds ts) :
    Spells (cs ++ ds) (ss ++ ts) := by
  refine ⟨?_, fun n rest => ?_⟩
  · rw [List.length_append, List.length_append]
    exact Nat.add_le_add h.1 h'.1
  · have hcount : n + (ss ++ ts).length = n + ts.length + ss.length := by
      rw [List.length_append]
      omega
    rw [hcount, List.append_assoc, h.2, h'.2, Option.map_map]
    simp [Function.comp_def]

/-- An empty line. -/
lemma line : Spells ['\n'] [] := by
  refine ⟨Nat.zero_le _, fun n rest => ?_⟩
  have hskip : skipLines false (['\n'] ++ rest) = skipLines false rest := by simp [skipLines]
  rw [List.length_nil, Nat.add_zero, statements?_congr hskip]
  simp

lemma statement {cs : List Char} {s : Statement} (hbegins : Begins cs)
    (h : ∀ rest, statement? (cs ++ rest) = some (s, rest)) : Spells cs [s] := by
  refine ⟨?_, fun n rest => ?_⟩
  · obtain ⟨c, more, rfl, _⟩ := hbegins
    simp
  · refine statements?_cons ?_ (h rest) n
    obtain ⟨c, more, rfl, hfirst⟩ := hbegins
    exact ⟨c, more ++ rest, rfl, hfirst⟩

/-- Lines one after another. -/
lemma flatten {α : Type} {line : α → List Char} {f : α → Statement} {as : List α}
    (h : ∀ a ∈ as, Spells (line a) [f a]) : Spells (as.map line).flatten (as.map f) := by
  induction as with
  | nil => exact nil
  | cons a as ih =>
      obtain ⟨ha, has⟩ := List.forall_mem_cons.mp h
      exact ha.append (ih has)

lemma spellLine {cs : List Char} {v : Value} (h : Denotes cs v) (key : String) :
    Spells (Toml.spellLine key cs) [.assign ⟨[], key⟩ v] := by
  refine statement ?_ (statement?_spellLine h key)
  obtain ⟨c, more, hkey, hfirst⟩ := begins_spellKey key.toList
  exact ⟨c, _, by rw [Toml.spellLine, hkey]; rfl, hfirst⟩

lemma item (cs : List Char) :
    Spells ('[' :: '[' :: (spellKey cs ++ [']', ']', '\n'])) [.item ⟨[], String.ofList cs⟩] :=
  statement (begins_bracket _) (statement?_item cs)

lemma header (parent cs : List Char) :
    Spells ('[' :: (spellKey parent ++ '.' :: (spellKey cs ++ [']', '\n'])))
      [.header ⟨[String.ofList parent], String.ofList cs⟩] :=
  statement (begins_bracket _) (statement?_header parent cs)

end Spells

/-- A document is read as what it spells. -/
theorem read?_of_spells {cs : List Char} {ss : List Statement} (h : Spells cs ss)
    (hmark : cs.head? ≠ some '\ufeff') : read? cs = document? ss := by
  obtain ⟨hlength, hread⟩ := h
  have hall : statements? cs.length cs = some ss := by
    have hend (n : Nat) : statements? n [] = some [] := by
      rw [statements?, skipLines]
    have hcount : cs.length - ss.length + ss.length = cs.length := Nat.sub_add_cancel hlength
    have hstatements := hread (cs.length - ss.length) []
    rw [List.append_nil, hcount, hend] at hstatements
    simpa using hstatements
  unfold read?
  split
  · simp at hmark
  · simp only [hall, Option.bind_some]

end PackagePlanner.Toml
