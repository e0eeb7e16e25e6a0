import Mathlib.Tactic
import PackagePlanner.Version

/-!
The order of versions, and the text of a version.

* Versions are ordered linearly, number by number.
* A text that begins and ends with no blank is trimmed already (`Text.trim_eq_self`), and fields
  without the separator are found again between separators (`Text.fields_append`).
* `Version.number?_toDigits`: the decimal digits of a number are read as it.
* `Version.read?_chars`: what is written for a version is read as it. The characters are digits and
  dots (`Version.mem_chars`), so no other sign can be confused with them.
-/

namespace PackagePlanner

namespace Text

/-! ### Blanks and fields -/

lemma isBlank_of_isDigit {c : Char} (h : c.isDigit = true) : isBlank c = false := by
  obtain ⟨hlower, hupper⟩ : 48 ≤ c.toNat ∧ c.toNat ≤ 57 := by
    simpa [Char.isDigit, UInt32.le_iff_toNat_le] using h
  simp only [isBlank, Bool.or_eq_false_iff, Bool.and_eq_false_iff, decide_eq_false_iff_not,
    beq_eq_false_iff_ne]
  omega

lemma trim_eq_self {cs : List Char} (h : ∀ c ∈ cs, isBlank c = false) : trim cs = cs := by
  have hdrop (ds : List Char) (hds : ∀ c ∈ ds, isBlank c = false) : ds.dropWhile isBlank = ds := by
    cases ds with
    | nil => rfl
    | cons d rest => rw [List.dropWhile_cons_of_neg (by simp [hds d List.mem_cons_self])]
  rw [trim, hdrop cs h, hdrop _ (fun c hc => h c (List.mem_reverse.mp hc)), List.reverse_reverse]

lemma fields_eq_singleton {separator : Char} {cs : List Char} (h : separator ∉ cs) :
    fields separator cs = [cs] := by
  induction cs with
  | nil => rfl
  | cons c rest ih =>
      obtain ⟨hc, hrest⟩ := not_or.mp (mt List.mem_cons.mpr h)
      rw [fields, if_neg (Ne.symm hc), ih hrest]

lemma fields_append {separator : Char} {cs : List Char} (h : separator ∉ cs) (rest : List Char) :
    fields separator (cs ++ separator :: rest) = cs :: fields separator rest := by
  induction cs with
  | nil => rw [List.nil_append, fields, if_pos rfl]
  | cons c cs ih =>
      obtain ⟨hc, hcs⟩ := not_or.mp (mt List.mem_cons.mpr h)
      rw [List.cons_append, fields, if_neg (Ne.symm hc), ih hcs]

end Text

namespace Version

/-! ### Order -/

/-- Versions are ordered linearly by their comparison. -/
instance : LinearOrder Version where
  le_refl v := Std.ReflOrd.isLE_rfl (a := v)
  le_trans _ _ _ h h' := Std.TransOrd.isLE_trans h h'
  le_antisymm _ _ h h' := Std.LawfulEqOrd.eq_of_compare (Std.OrientedCmp.isLE_antisymm h h')
  le_total v w := by
    change (compare v w).isLE = true ∨ (compare w v).isLE = true
    rw [Std.OrientedOrd.eq_swap (a := w)]
    cases compare v w <;> simp
  lt_iff_le_not_ge v w := by
    change compare v w = .lt ↔ (compare v w).isLE = true ∧ ¬ (compare w v).isLE = true
    rw [Std.OrientedOrd.eq_swap (a := w)]
    cases compare v w <;> simp
  toDecidableLE _ _ := inferInstanceAs (Decidable (_ = true))
  compare_eq_compareOfLessAndEq v w := by
    have hlt : v < w ↔ compare v w = .lt := Iff.rfl
    rw [compareOfLessAndEq]
    cases h : compare v w with
    | lt => rw [if_pos (hlt.mpr h)]
    | eq =>
        obtain rfl := Std.LawfulEqOrd.eq_of_compare h
        rw [if_neg (by rw [hlt, h]; simp), if_pos rfl]
    | gt =>
        rw [if_neg (by rw [hlt, h]; simp), if_neg]
        rintro rfl
        simp [Std.ReflOrd.compare_self] at h

/-! ### Numbers -/

lemma isDigit_of_mem_digits {n : Nat} {c : Char} (h : c ∈ Nat.toDigits 10 n) :
    c.isDigit = true :=
  Nat.isDigit_of_mem_toDigits (by decide) (by decide) h

lemma number?_toDigits (n : UInt64) : number? (Nat.toDigits 10 n.toNat) = some n := by
  have hdigits : (Nat.toDigits 10 n.toNat).all Char.isDigit = true :=
    List.all_eq_true.mpr fun _ => isDigit_of_mem_digits
  have hvalue := Nat.ofDigitChars_ten_toDigits (n := n.toNat)
  rw [number?, if_pos ⟨Nat.toDigits_ne_nil, hdigits⟩]
  simp only [hvalue]
  rw [dif_pos n.toNat_lt_size, UInt64.ofNatLT_toNat]

/-! ### Versions -/

lemma mem_chars {v : Version} {c : Char} (h : c ∈ v.chars) : c.isDigit = true ∨ c = '.' := by
  simp only [chars, List.mem_append, List.mem_cons] at h
  rcases h with h | h | h | h | h
  · exact .inl (isDigit_of_mem_digits h)
  · exact .inr h
  · exact .inl (isDigit_of_mem_digits h)
  · exact .inr h
  · exact .inl (isDigit_of_mem_digits h)

lemma isBlank_of_mem_chars {v : Version} {c : Char} (h : c ∈ v.chars) :
    Text.isBlank c = false := by
  rcases mem_chars h with hc | rfl
  · exact Text.isBlank_of_isDigit hc
  · decide

lemma dot_not_mem_digits (n : Nat) : '.' ∉ Nat.toDigits 10 n :=
  fun h => absurd (isDigit_of_mem_digits h) (by decide)

/-- What is written for a version is read as it. -/
theorem read?_chars (v : Version) : read? v.chars = some v := by
  have hfields : Text.fields '.' v.chars = [Nat.toDigits 10 v.major.toNat,
      Nat.toDigits 10 v.minor.toNat, Nat.toDigits 10 v.revision.toNat] := by
    rw [chars, Text.fields_append (dot_not_mem_digits _), Text.fields_append (dot_not_mem_digits _),
      Text.fields_eq_singleton (dot_not_mem_digits _)]
  rw [read?, Text.trim_eq_self fun _ => isBlank_of_mem_chars, hfields]
  simp [number?_toDigits]

theorem parse_text (v : Version) : parse v.text = .ok v := by
  rw [parse, text, String.toList_ofList, read?_chars]

end Version

end PackagePlanner
