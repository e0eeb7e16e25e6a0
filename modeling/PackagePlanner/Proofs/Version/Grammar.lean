import Mathlib.Data.List.TakeWhile
import PackagePlanner.Proofs.Version

/-!
Which texts are versions.

* `Version.Numeral` is a run of digits with its value, and `Version.Written` says which texts
  without blanks around them denote a version: one to three numerals between dots.
* `Text.Padded` is a text with blanks around it, and `Version.Spaced` one that denotes a version.
  `Version.read?_eq_some_iff_spaced`: each of them is read as the version that it denotes, and no
  other text is read.
* `Version.Numerals`: the texts that denote some version are one to three runs of digits between
  dots, each with a value of 64 bits.
* `Version.parse_eq_iff_numerals`: any other text is malformed, and what is written for a version
  is read as it again.
-/

namespace PackagePlanner

namespace Text

/-! ### Blanks around a text -/

/-- A text is another one with blanks around it. -/
def Padded (cs body : List Char) : Prop :=
  ∃ before after, cs = before ++ (body ++ after) ∧ (∀ c ∈ before, isBlank c = true) ∧
    ∀ c ∈ after, isBlank c = true

lemma Padded.trans {cs ds body : List Char} (h : Padded cs ds) (h' : Padded ds body) :
    Padded cs body := by
  obtain ⟨before, after, rfl, hbefore, hafter⟩ := h
  obtain ⟨before', after', rfl, hbefore', hafter'⟩ := h'
  refine ⟨before ++ before', after' ++ after, by simp, fun c hc => ?_, fun c hc => ?_⟩
  · exact (List.mem_append.mp hc).elim (hbefore c) (hbefore' c)
  · exact (List.mem_append.mp hc).elim (hafter' c) (hafter c)

lemma padded_dropWhile (cs : List Char) : Padded cs (cs.dropWhile isBlank) :=
  ⟨cs.takeWhile isBlank, [], by rw [List.append_nil, List.takeWhile_append_dropWhile],
    fun _ => List.mem_takeWhile_imp, by simp⟩

lemma padded_reverse_dropWhile (cs : List Char) :
    Padded cs (cs.reverse.dropWhile isBlank).reverse := by
  refine ⟨[], (cs.reverse.takeWhile isBlank).reverse, ?_, by simp, fun c hc => ?_⟩
  · rw [List.nil_append, ← List.reverse_append, List.takeWhile_append_dropWhile,
      List.reverse_reverse]
  · exact List.mem_takeWhile_imp (List.mem_reverse.mp hc)

/-- What is cut off a text are blanks around it. -/
lemma padded_trim (cs : List Char) : Padded cs (trim cs) :=
  (padded_dropWhile cs).trans (padded_reverse_dropWhile _)

/-- Blanks are dropped as far as the first character that is none. -/
lemma dropWhile_append_cons {c : Char} (hc : isBlank c = false) (cs ds : List Char) :
    (cs ++ c :: ds).dropWhile isBlank = cs.dropWhile isBlank ++ c :: ds := by
  rw [List.dropWhile_append, List.dropWhile_cons_of_neg (by simp [hc])]
  split
  · rename_i hnil
    rw [List.isEmpty_iff.mp hnil, List.nil_append]
  · rfl

/-- Texts that differ by blanks around them are the same once these are cut off. -/
lemma Padded.trim_eq {cs body : List Char} (h : Padded cs body) : trim cs = trim body := by
  obtain ⟨before, after, rfl, hbefore, hafter⟩ := h
  rw [trim, trim, List.dropWhile_append_of_pos hbefore, List.dropWhile_append]
  split
  · rename_i hnil
    rw [List.isEmpty_iff.mp hnil, List.dropWhile_eq_nil_iff.mpr hafter]
  · rw [List.reverse_append,
      List.dropWhile_append_of_pos fun c hc => hafter c (List.mem_reverse.mp hc)]

/-- A text with blanks around it has no other characters besides. -/
lemma Padded.mem_or_isBlank {cs body : List Char} (h : Padded cs body) {c : Char} (hc : c ∈ cs) :
    c ∈ body ∨ isBlank c = true := by
  obtain ⟨before, after, rfl, hbefore, hafter⟩ := h
  rw [List.mem_append, List.mem_append] at hc
  rcases hc with hc | hc | hc
  · exact .inr (hbefore c hc)
  · exact .inl hc
  · exact .inr (hafter c hc)

/-- A character that is no blank stays, and only blanks are cut off what stands on either side. -/
lemma trim_append_cons {c : Char} (hc : isBlank c = false) (cs ds : List Char) :
    ∃ first second, trim (cs ++ c :: ds) = first ++ c :: second ∧ Padded cs first ∧
      Padded ds second := by
  refine ⟨cs.dropWhile isBlank, (ds.reverse.dropWhile isBlank).reverse, ?_, padded_dropWhile cs,
    padded_reverse_dropWhile ds⟩
  rw [trim, dropWhile_append_cons hc, List.reverse_append, List.reverse_cons, List.append_assoc,
    List.singleton_append, dropWhile_append_cons hc]
  simp

/-- So does a last character that is no blank. -/
lemma trim_concat {c : Char} (hc : isBlank c = false) (cs : List Char) :
    ∃ first, trim (cs ++ [c]) = first ++ [c] ∧ Padded cs first := by
  obtain ⟨first, second, heq, hfirst, before, after, hnil, _⟩ := trim_append_cons hc cs []
  obtain ⟨-, rfl, -⟩ : before = [] ∧ second = [] ∧ after = [] := by simpa using hnil.symm
  exact ⟨first, heq, hfirst⟩

/-! ### Fields of a text -/

/-- The fields of a text, with the separators between them again, are the text. -/
lemma intercalate_fields (separator : Char) (cs : List Char) :
    [separator].intercalate (fields separator cs) = cs := by
  induction cs with
  | nil => rfl
  | cons c rest ih =>
      obtain ⟨field, others, hfields⟩ := List.exists_cons_of_ne_nil (fields_ne_nil separator rest)
      rw [hfields] at ih
      by_cases hc : c = separator
      · rw [fields, if_pos hc, hfields, List.intercalate_cons_cons, ih, hc]
        rfl
      · rw [fields, if_neg hc, hfields]
        cases others <;> simp_all [List.intercalate_cons_cons]

end Text

namespace Version

/-! ### Numerals -/

/-- A run of decimal digits with its value; zeros may come first. -/
structure Numeral (digits : List Char) (n : UInt64) : Prop where
  /-- There is a digit. -/
  nonempty : digits ≠ []
  /-- There are only digits. -/
  isDigit : ∀ c ∈ digits, c.isDigit = true
  /-- The digits give the value in decimal. -/
  value : Nat.ofDigitChars 10 digits 0 = n.toNat

lemma number?_eq_some_iff {digits : List Char} {n : UInt64} :
    number? digits = some n ↔ Numeral digits n := by
  rw [number?]
  constructor
  · intro h
    split at h
    · rename_i hdigits
      simp only [Option.dite_none_right_eq_some, Option.some.injEq] at h
      obtain ⟨hlt, rfl⟩ := h
      exact ⟨hdigits.1, List.all_eq_true.mp hdigits.2, UInt64.toNat_ofNatLT.symm⟩
    · simp at h
  · intro h
    have hlt : Nat.ofDigitChars 10 digits 0 < UInt64.size := h.value ▸ n.toNat_lt_size
    rw [if_pos ⟨h.nonempty, List.all_eq_true.mpr h.isDigit⟩]
    simp only [dif_pos hlt, Option.some.injEq]
    rw [← UInt64.toNat_inj, UInt64.toNat_ofNatLT, h.value]

lemma Numeral.dot_not_mem {digits : List Char} {n : UInt64} (h : Numeral digits n) :
    '.' ∉ digits :=
  fun hdot => absurd (h.isDigit _ hdot) (by decide)

/-- A run of digits stands for a number if its value fits into 64 bits. -/
lemma exists_numeral_iff {digits : List Char} :
    (∃ n, Numeral digits n) ↔ digits ≠ [] ∧ (∀ c ∈ digits, c.isDigit = true) ∧
      Nat.ofDigitChars 10 digits 0 < 2 ^ 64 := by
  constructor
  · rintro ⟨n, h⟩
    exact ⟨h.nonempty, h.isDigit, h.value ▸ n.toNat_lt⟩
  · rintro ⟨hne, hdigits, hlt⟩
    exact ⟨UInt64.ofNatLT _ hlt, hne, hdigits, UInt64.toNat_ofNatLT.symm⟩

/-! ### Versions -/

/-- The texts of a version: one to three numerals between dots, for its numbers in order. Numbers
without a numeral are zero. -/
inductive Written : List Char → Version → Prop
  | major {a : List Char} {x : UInt64} : Numeral a x → Written a ⟨x, 0, 0⟩
  | minor {a b : List Char} {x y : UInt64} : Numeral a x → Numeral b y →
      Written (a ++ '.' :: b) ⟨x, y, 0⟩
  | revision {a b c : List Char} {x y z : UInt64} : Numeral a x → Numeral b y → Numeral c z →
      Written (a ++ '.' :: (b ++ '.' :: c)) ⟨x, y, z⟩

/-- A version is written with digits and dots. -/
lemma Written.mem {cs : List Char} {v : Version} (h : Written cs v) {c : Char} (hc : c ∈ cs) :
    c.isDigit = true ∨ c = '.' := by
  cases h with
  | major ha => exact .inl (ha.isDigit c hc)
  | minor ha hb =>
      rcases List.mem_append.mp hc with hc | hc
      · exact .inl (ha.isDigit c hc)
      · exact (List.mem_cons.mp hc).symm.imp_left (hb.isDigit c)
  | revision ha hb hc' =>
      simp only [List.mem_append, List.mem_cons] at hc
      rcases hc with hc | hc | hc | hc | hc
      · exact .inl (ha.isDigit c hc)
      · exact .inr hc
      · exact .inl (hb.isDigit c hc)
      · exact .inr hc
      · exact .inl (hc'.isDigit c hc)

lemma Written.ne_nil {cs : List Char} {v : Version} (h : Written cs v) : cs ≠ [] := by
  cases h with
  | major ha => exact ha.nonempty
  | minor => simp
  | revision => simp

/-- A version is written without blanks. -/
lemma Written.isBlank_of_mem {cs : List Char} {v : Version} (h : Written cs v) {c : Char}
    (hc : c ∈ cs) : Text.isBlank c = false := by
  rcases h.mem hc with hdigit | rfl
  · exact Text.isBlank_of_isDigit hdigit
  · decide

/-- One to three runs of digits between dots, each with a value of 64 bits. -/
def Numerals (cs : List Char) : Prop :=
  ∃ fields : List (List Char), cs = ['.'].intercalate fields ∧
    1 ≤ fields.length ∧ fields.length ≤ 3 ∧
      ∀ digits ∈ fields, digits ≠ [] ∧ (∀ c ∈ digits, c.isDigit = true) ∧
        Nat.ofDigitChars 10 digits 0 < 2 ^ 64

/-- Such runs are the texts of versions. -/
lemma exists_written_iff {cs : List Char} : (∃ v, Written cs v) ↔ Numerals cs := by
  constructor
  · rintro ⟨v, h⟩
    cases h with
    | major ha =>
        refine ⟨[cs], by simp, by simp, by simp, ?_⟩
        simpa using exists_numeral_iff.mp ⟨_, ha⟩
    | @minor a b _ _ ha hb =>
        refine ⟨[a, b], by simp, by simp, by simp, ?_⟩
        simpa using ⟨exists_numeral_iff.mp ⟨_, ha⟩, exists_numeral_iff.mp ⟨_, hb⟩⟩
    | @revision a b c _ _ _ ha hb hc =>
        refine ⟨[a, b, c], by simp, by simp, by simp, ?_⟩
        simpa using ⟨exists_numeral_iff.mp ⟨_, ha⟩, exists_numeral_iff.mp ⟨_, hb⟩,
          exists_numeral_iff.mp ⟨_, hc⟩⟩
  · rintro ⟨fields, rfl, hpos, hle, hfields⟩
    simp only [← exists_numeral_iff] at hfields
    match fields, hpos, hle with
    | [a], _, _ =>
        obtain ⟨x, ha⟩ := hfields a (by simp)
        exact ⟨_, by simpa using .major ha⟩
    | [a, b], _, _ =>
        obtain ⟨x, ha⟩ := hfields a (by simp)
        obtain ⟨y, hb⟩ := hfields b (by simp)
        exact ⟨_, by simpa using .minor ha hb⟩
    | [a, b, c], _, _ =>
        obtain ⟨x, ha⟩ := hfields a (by simp)
        obtain ⟨y, hb⟩ := hfields b (by simp)
        obtain ⟨z, hc⟩ := hfields c (by simp)
        exact ⟨_, by simpa using .revision ha hb hc⟩

/-- Fields are read as numbers exactly if they are numerals. -/
lemma mapM_number?_eq_some_iff {fields : List (List Char)} {ns : List UInt64} :
    fields.mapM number? = some ns ↔ List.Forall₂ Numeral fields ns := by
  induction fields generalizing ns with
  | nil => cases ns <;> simp
  | cons field rest ih =>
      rw [List.mapM_cons, List.forall₂_cons_left_iff]
      simp [Option.bind_eq_some_iff, number?_eq_some_iff, ih, eq_comm (b := ns)]

/-- A text is read as a version exactly if it denotes it, without the blanks around it. -/
theorem read?_eq_some_iff {cs : List Char} {v : Version} :
    read? cs = some v ↔ Written (Text.trim cs) v := by
  rw [read?]
  constructor
  · intro h
    have hjoin := Text.intercalate_fields '.' (Text.trim cs)
    generalize Text.fields '.' (Text.trim cs) = fields at h hjoin
    rw [← hjoin]
    split at h
    · rename_i hnumbers
      obtain _ | ⟨ha, _ | _⟩ := mapM_number?_eq_some_iff.mp hnumbers
      obtain rfl := Option.some.inj h
      simpa using .major ha
    · rename_i hnumbers
      obtain _ | ⟨ha, _ | ⟨hb, _ | _⟩⟩ := mapM_number?_eq_some_iff.mp hnumbers
      obtain rfl := Option.some.inj h
      simpa using .minor ha hb
    · rename_i hnumbers
      obtain _ | ⟨ha, _ | ⟨hb, _ | ⟨hc, _ | _⟩⟩⟩ := mapM_number?_eq_some_iff.mp hnumbers
      obtain rfl := Option.some.inj h
      simpa using .revision ha hb hc
    · simp at h
  · intro h
    generalize Text.trim cs = ds at h ⊢
    cases h with
    | major ha =>
        rw [Text.fields_eq_singleton ha.dot_not_mem]
        simp [number?_eq_some_iff.mpr ha]
    | minor ha hb =>
        rw [Text.fields_append ha.dot_not_mem, Text.fields_eq_singleton hb.dot_not_mem]
        simp [number?_eq_some_iff.mpr ha, number?_eq_some_iff.mpr hb]
    | revision ha hb hc =>
        rw [Text.fields_append ha.dot_not_mem, Text.fields_append hb.dot_not_mem,
          Text.fields_eq_singleton hc.dot_not_mem]
        simp [number?_eq_some_iff.mpr ha, number?_eq_some_iff.mpr hb, number?_eq_some_iff.mpr hc]

/-! ### Blanks around a version -/

/-- A text of a version with blanks around it. -/
def Spaced (cs : List Char) (v : Version) : Prop :=
  ∃ body, Text.Padded cs body ∧ Written body v

/-- Such texts are read as the version. -/
theorem read?_eq_some_iff_spaced {cs : List Char} {v : Version} :
    read? cs = some v ↔ Spaced cs v := by
  rw [read?_eq_some_iff]
  constructor
  · exact fun h => ⟨_, Text.padded_trim cs, h⟩
  · rintro ⟨body, hpadded, h⟩
    rwa [hpadded.trim_eq, Text.trim_eq_self fun _ => h.isBlank_of_mem]

lemma Spaced.ne_nil {cs : List Char} {v : Version} (h : Spaced cs v) : cs ≠ [] := by
  rintro rfl
  obtain ⟨body, ⟨before, after, hnil, _⟩, hwritten⟩ := h
  obtain ⟨-, rfl, -⟩ : before = [] ∧ body = [] ∧ after = [] := by simpa using hnil.symm
  exact hwritten.ne_nil rfl

/-- With fewer blanks around it the text denotes the same version. -/
lemma Spaced.of_padded {cs ds : List Char} {v : Version} (h : Spaced cs v)
    (hpadded : Text.Padded cs ds) : Spaced ds v := by
  rw [← read?_eq_some_iff_spaced, read?] at h ⊢
  rwa [← hpadded.trim_eq]

/-- A version before a last character that is no blank stays when blanks are cut off. -/
lemma Spaced.trim_concat {cs : List Char} {v : Version} (h : Spaced cs v) {c : Char}
    (hc : Text.isBlank c = false) :
    ∃ first, Text.trim (cs ++ [c]) = first ++ [c] ∧ Spaced first v := by
  obtain ⟨first, heq, hfirst⟩ := Text.trim_concat hc cs
  exact ⟨first, heq, h.of_padded hfirst⟩

/-- So do versions on either side of such a character. -/
lemma Spaced.trim_append_cons {cs ds : List Char} {v w : Version} (hv : Spaced cs v)
    (hw : Spaced ds w) {c : Char} (hc : Text.isBlank c = false) :
    ∃ first second, Text.trim (cs ++ c :: ds) = first ++ c :: second ∧ Spaced first v ∧
      Spaced second w := by
  obtain ⟨first, second, heq, hfirst, hsecond⟩ := Text.trim_append_cons hc cs ds
  exact ⟨first, second, heq, hv.of_padded hfirst, hw.of_padded hsecond⟩

/-- A text of a version holds digits, dots and blanks only. -/
lemma Spaced.mem {cs : List Char} {v : Version} (h : Spaced cs v) {c : Char} (hc : c ∈ cs) :
    c.isDigit = true ∨ c = '.' ∨ Text.isBlank c = true := by
  obtain ⟨body, hpadded, hwritten⟩ := h
  rcases hpadded.mem_or_isBlank hc with hc | hblank
  · exact (hwritten.mem hc).imp_right .inl
  · exact .inr (.inr hblank)

/-! ### Texts -/

/-- A text is parsed as a version exactly if it denotes it, but for blanks around. A text that is
not one to three runs of digits between dots, each with a value of 64 bits, is malformed, and
reported with its blanks. The text of a version is parsed as this version. -/
theorem parse_eq_iff_numerals :
    (∀ text v, parse text = .ok v ↔ ∃ body, Text.Padded text.toList body ∧ Written body v) ∧
      (∀ text e, parse text = .error e ↔
        e = .version text ∧ ∀ body, Text.Padded text.toList body → ¬ Numerals body) ∧
      ∀ v : Version, parse v.text = .ok v := by
  refine ⟨fun text v => ?_, fun text e => ?_, parse_text⟩
  · refine Iff.trans ?_ read?_eq_some_iff_spaced
    rw [parse]
    cases read? text.toList <;> simp
  · have hnone : (∀ body, Text.Padded text.toList body → ¬ Numerals body) ↔
        read? text.toList = none := by
      simp only [← exists_written_iff, Option.eq_none_iff_forall_ne_some, ne_eq,
        read?_eq_some_iff_spaced]
      constructor
      · rintro h v ⟨body, hpadded, hwritten⟩
        exact h body hpadded ⟨v, hwritten⟩
      · rintro h body hpadded ⟨v, hwritten⟩
        exact h v ⟨body, hpadded, hwritten⟩
    rw [hnone, parse]
    cases read? text.toList <;> simp [eq_comm]

/-- Zeros before the largest number of 64 bits do not count. -/
example : parse " 007.00018446744073709551615\t" = .ok ⟨7, 18446744073709551615, 0⟩ := by
  decide +kernel

/-- One more is too much. -/
example : parse "18446744073709551616" = .error (.version "18446744073709551616") := by
  decide +kernel

end Version

end PackagePlanner
