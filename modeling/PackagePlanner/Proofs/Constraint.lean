import PackagePlanner.Constraint
import PackagePlanner.Proofs.Version.Grammar

/-!
What a constraint accepts, and which texts denote it.

* `Constraint.admits_exact_iff`: an exact constraint accepts one version.
* `Constraint.Written` says which texts denote a constraint, blanks around the whole apart.
  `Constraint.read?_eq_some_iff_padded`: each of them, with blanks around it, is read as the
  constraint that it denotes, and no other text is read. No version has a sign in it, so the last
  character tells a suffix from a range, and the first `-` of a range stands between its versions.
* `Constraint.parse_eq_iff_written`: any other text is malformed; what is written for a constraint
  is read as it again (`Constraint.read?_chars`).
-/

namespace PackagePlanner

namespace Constraint

/-! ### Accepted versions -/

lemma admits_exact_iff {v w : Version} : (exact v).admits w = true ↔ w = v := by
  rcases lt_trichotomy w v with h | rfl | h
  · have hbefore : compare w v = .lt := compare_lt_iff_lt.mpr h
    simp [admits, position, lower?, hbefore, h.ne]
  · simp [admits, position, lower?, upper?]
  · have hbehind : compare w v = .gt := compare_gt_iff_gt.mpr h
    simp [admits, position, lower?, upper?, hbehind, h.ne']

/-! ### Written constraints -/

/-- The texts of a constraint. There may be blanks around each version. -/
inductive Written : List Char → Constraint → Prop
  | empty : Written [] any
  | star : Written ['*'] any
  /-- A version alone is a lower bound. -/
  | bare {cs : List Char} {v : Version} : Version.Spaced cs v → Written cs (atLeast v)
  | exact {cs : List Char} {v : Version} : Version.Spaced cs v → Written (cs ++ ['!']) (exact v)
  | atLeast {cs : List Char} {v : Version} :
      Version.Spaced cs v → Written (cs ++ ['+']) (atLeast v)
  | atMost {cs : List Char} {v : Version} : Version.Spaced cs v → Written (cs ++ ['-']) (atMost v)
  | range {cs ds : List Char} {lower upper : Version} {h : (compare lower upper).isLE = true} :
      Version.Spaced cs lower → Version.Spaced ds upper →
      Written (cs ++ '-' :: ds) (range lower upper h)
  /-- The newer end may come first. -/
  | turned {cs ds : List Char} {lower upper : Version} {h : (compare lower upper).isLE = true} :
      Version.Spaced cs lower → Version.Spaced ds upper →
      Written (ds ++ '-' :: cs) (range lower upper h)

lemma between_of_isLE {a b : Version} (h : (compare a b).isLE = true) :
    between a b = range a b h := by
  rw [between, dif_pos h]

/-- The ends of a range may be given in either order. -/
lemma between_comm (a b : Version) : between a b = between b a := by
  rcases lt_trichotomy a b with h | rfl | h
  · have hle : (compare a b).isLE = true := h.le
    have hnot : ¬ (compare b a).isLE = true := h.not_ge
    rw [between, dif_pos hle, between, dif_neg hnot]
  · rfl
  · have hle : (compare b a).isLE = true := h.le
    have hnot : ¬ (compare a b).isLE = true := h.not_ge
    rw [between, dif_neg hnot, between, dif_pos hle]

/-- Two versions with a sign between them are a text of the range between them. -/
lemma Written.between {cs ds : List Char} {a b : Version}
    (ha : Version.Spaced cs a) (hb : Version.Spaced ds b) :
    Written (cs ++ '-' :: ds) (between a b) := by
  by_cases h : (compare a b).isLE = true
  · rw [between_of_isLE h]
    exact .range ha hb
  · rw [Constraint.between, dif_neg h]
    exact .turned hb ha

/-- The text of a version has no sign of a constraint. -/
lemma ne_of_spaced {cs : List Char} {v : Version} (h : Version.Spaced cs v) {c : Char}
    (hc : c ∈ cs) : c ≠ '!' ∧ c ≠ '+' ∧ c ≠ '-' ∧ c ≠ '*' := by
  rcases h.mem hc with hdigit | rfl | hblank
  · refine ⟨?_, ?_, ?_, ?_⟩ <;> rintro rfl <;> simp [Char.isDigit] at hdigit
  · decide
  · refine ⟨?_, ?_, ?_, ?_⟩ <;> rintro rfl <;> exact absurd hblank (by decide)

/-- Each text that is read as a constraint is one of its texts. -/
lemma written_of_read? {cs : List Char} {c : Constraint} (h : read? cs = some c) :
    Written (Text.trim cs) c := by
  rw [read?] at h
  generalize Text.trim cs = ts at h ⊢
  split at h
  · rename_i hany
    obtain rfl := Option.some.inj h
    rcases hany with rfl | rfl
    · exact .empty
    · exact .star
  · split at h
    · rename_i hlast
      obtain ⟨v, hv, rfl⟩ := Option.map_eq_some_iff.mp h
      rw [← List.dropLast_append_getLast? _ hlast]
      exact .exact (Version.read?_eq_some_iff_spaced.mp hv)
    · rename_i hlast
      obtain ⟨v, hv, rfl⟩ := Option.map_eq_some_iff.mp h
      rw [← List.dropLast_append_getLast? _ hlast]
      exact .atLeast (Version.read?_eq_some_iff_spaced.mp hv)
    · rename_i hlast
      obtain ⟨v, hv, rfl⟩ := Option.map_eq_some_iff.mp h
      rw [← List.dropLast_append_getLast? _ hlast]
      exact .atMost (Version.read?_eq_some_iff_spaced.mp hv)
    · split at h
      · obtain ⟨v, hv, rfl⟩ := Option.map_eq_some_iff.mp h
        exact .bare (Version.read?_eq_some_iff_spaced.mp hv)
      · rename_i first sign second hspan
        obtain ⟨a, ha, h⟩ := Option.bind_eq_some_iff.mp h
        obtain ⟨b, hb, rfl⟩ := Option.map_eq_some_iff.mp h
        rw [List.span_eq_takeWhile_dropWhile] at hspan
        obtain ⟨rfl, hdrop⟩ := Prod.mk.inj hspan
        have hsign : sign = '-' := by
          have hhead := List.head?_dropWhile_not (fun c => decide (c ≠ '-')) ts
          rw [hdrop] at hhead
          simpa using hhead
        have hjoin := List.takeWhile_append_dropWhile (p := fun c => decide (c ≠ '-')) (l := ts)
        rw [hdrop, hsign] at hjoin
        rw [← hjoin]
        exact .between (Version.read?_eq_some_iff_spaced.mp ha)
          (Version.read?_eq_some_iff_spaced.mp hb)

/-- Where the last character is no suffix, the first `-` decides. -/
lemma read?_of_getLast? {cs : List Char} (hne : Text.trim cs ≠ [])
    (hlast : ∀ c, (Text.trim cs).getLast? = some c → c ≠ '!' ∧ c ≠ '+' ∧ c ≠ '-' ∧ c ≠ '*') :
    read? cs = match (Text.trim cs).span (· ≠ '-') with
      | (_, []) => (Version.read? (Text.trim cs)).map atLeast
      | (first, _ :: second) =>
        (Version.read? first).bind fun a => (Version.read? second).map fun b => between a b := by
  have hany : ¬ (Text.trim cs = [] ∨ Text.trim cs = ['*']) := by
    rintro (h | h)
    · exact hne h
    · exact absurd rfl (hlast '*' (by rw [h]; rfl)).2.2.2
  rw [read?]
  simp only [if_neg hany]
  split
  · rename_i heq
    exact absurd rfl (hlast _ heq).1
  · rename_i heq
    exact absurd rfl (hlast _ heq).2.1
  · rename_i heq
    exact absurd rfl (hlast _ heq).2.2.1
  · rfl

/-- A text without a sign of its own is read as a lower bound. -/
lemma read?_of_bare {cs : List Char} {v : Version} (h : Version.Spaced (Text.trim cs) v) :
    read? cs = some (atLeast v) := by
  have hkept : ∀ c ∈ Text.trim cs, decide (c ≠ '-') = true :=
    fun c hc => decide_eq_true (ne_of_spaced h hc).2.2.1
  have hspan : (Text.trim cs).span (· ≠ '-') = (Text.trim cs, []) := by
    rw [List.span_eq_takeWhile_dropWhile, List.takeWhile_eq_self_iff.mpr hkept,
      List.dropWhile_eq_nil_iff.mpr hkept]
  rw [read?_of_getLast? h.ne_nil fun c hc => ne_of_spaced h (List.mem_of_getLast? hc),
    hspan]
  simp [Version.read?_eq_some_iff_spaced.mpr h]

/-- Two versions are read as the range between them, for there is but one sign in the text. -/
lemma read?_of_split {cs first second : List Char} {a b : Version}
    (hsplit : Text.trim cs = first ++ '-' :: second) (ha : Version.Spaced first a)
    (hb : Version.Spaced second b) : read? cs = some (between a b) := by
  have hkept : ∀ c ∈ first, decide (c ≠ '-') = true :=
    fun c hc => decide_eq_true (ne_of_spaced ha hc).2.2.1
  have hspan : (Text.trim cs).span (· ≠ '-') = (first, '-' :: second) := by
    rw [hsplit, List.span_eq_takeWhile_dropWhile, List.takeWhile_append_of_pos hkept,
      List.dropWhile_append_of_pos hkept]
    simp
  have hlast (c : Char) (hc : (Text.trim cs).getLast? = some c) :
      c ≠ '!' ∧ c ≠ '+' ∧ c ≠ '-' ∧ c ≠ '*' := by
    rw [hsplit, List.append_cons, List.getLast?_append_of_ne_nil _ hb.ne_nil] at hc
    exact ne_of_spaced hb (List.mem_of_getLast? hc)
  rw [read?_of_getLast? (by simp [hsplit]) hlast, hspan]
  simp [Version.read?_eq_some_iff_spaced.mpr ha, Version.read?_eq_some_iff_spaced.mpr hb]

/-- Each text of a constraint is read as it. -/
lemma read?_of_written {cs : List Char} {c : Constraint} (h : Written (Text.trim cs) c) :
    read? cs = some c := by
  generalize hts : Text.trim cs = ts at h
  cases h with
  | empty => simp [read?, hts]
  | star => simp [read?, hts]
  | bare hv => exact read?_of_bare (hts ▸ hv)
  | exact hv | atLeast hv | atMost hv =>
      simp [read?, hts, List.append_eq_singleton_iff, Version.read?_eq_some_iff_spaced.mpr hv]
  | range ha hb => rw [read?_of_split hts ha hb, between_of_isLE]
  | turned ha hb => rw [read?_of_split hts hb ha, between_comm, between_of_isLE]

/-- Without the blanks around it a text of a constraint is still one. -/
lemma Written.trim {cs : List Char} {c : Constraint} (h : Written cs c) :
    Written (Text.trim cs) c := by
  cases h with
  | empty => exact .empty
  | star => exact .star
  | bare hv => exact .bare (hv.of_padded (Text.padded_trim _))
  | exact hv =>
      obtain ⟨first, heq, hfirst⟩ := hv.trim_concat (c := '!') (by decide)
      exact heq ▸ .exact hfirst
  | atLeast hv =>
      obtain ⟨first, heq, hfirst⟩ := hv.trim_concat (c := '+') (by decide)
      exact heq ▸ .atLeast hfirst
  | atMost hv =>
      obtain ⟨first, heq, hfirst⟩ := hv.trim_concat (c := '-') (by decide)
      exact heq ▸ .atMost hfirst
  | range ha hb =>
      obtain ⟨first, second, heq, hfirst, hsecond⟩ := ha.trim_append_cons hb (c := '-') (by decide)
      exact heq ▸ .range hfirst hsecond
  | turned ha hb =>
      obtain ⟨first, second, heq, hfirst, hsecond⟩ := hb.trim_append_cons ha (c := '-') (by decide)
      exact heq ▸ .turned hsecond hfirst

/-- A text is read as a constraint exactly if it is one of its texts, but for blanks around. -/
theorem read?_eq_some_iff_padded {cs : List Char} {c : Constraint} :
    read? cs = some c ↔ ∃ body, Text.Padded cs body ∧ Written body c := by
  constructor
  · exact fun h => ⟨_, Text.padded_trim cs, written_of_read? h⟩
  · rintro ⟨body, hpadded, h⟩
    exact read?_of_written (hpadded.trim_eq ▸ h.trim)

/-! ### Texts -/

/-- What is written for a constraint is one of its texts. -/
lemma written_chars (c : Constraint) : Written c.chars c := by
  have hversion (v : Version) : Version.Spaced v.chars v :=
    Version.read?_eq_some_iff_spaced.mp v.read?_chars
  cases c with
  | any => exact .star
  | exact v => exact .exact (hversion v)
  | atLeast v => exact .atLeast (hversion v)
  | atMost v => exact .atMost (hversion v)
  | range lower upper _ => exact .range (hversion lower) (hversion upper)

/-- What is written for a constraint is read as it. -/
theorem read?_chars (c : Constraint) : read? c.chars = some c :=
  read?_of_written c.written_chars.trim

theorem parse_text (c : Constraint) : parse c.text = .ok c := by
  rw [parse, text, String.toList_ofList, read?_chars]

/-- A text is parsed as a constraint exactly if it denotes it, but for blanks around. A text that
denotes none is malformed, and reported with its blanks. The text of a constraint is parsed as this
constraint. -/
theorem parse_eq_iff_written :
    (∀ text c, parse text = .ok c ↔ ∃ body, Text.Padded text.toList body ∧ Written body c) ∧
      (∀ text e, parse text = .error e ↔
        e = .constraint text ∧ ∀ body, Text.Padded text.toList body → ∀ c, ¬ Written body c) ∧
      ∀ c : Constraint, parse c.text = .ok c := by
  refine ⟨fun text c => ?_, fun text e => ?_, parse_text⟩
  · rw [← read?_eq_some_iff_padded, parse]
    cases read? text.toList <;> simp
  · have hnone : (∀ body, Text.Padded text.toList body → ∀ c, ¬ Written body c) ↔
        read? text.toList = none := by
      simp only [Option.eq_none_iff_forall_ne_some, ne_eq, read?_eq_some_iff_padded]
      constructor
      · rintro h c ⟨body, hpadded, hwritten⟩
        exact h body hpadded c hwritten
      · exact fun h body hpadded c hwritten => h c ⟨body, hpadded, hwritten⟩
    rw [hnone, parse]
    cases read? text.toList <;> simp [eq_comm]

/-- The newer end comes first, and blanks stand around the sign. -/
example : parse "\t2.0 - 1 " = .ok (.range ⟨1, 0, 0⟩ ⟨2, 0, 0⟩ (by decide)) := by
  decide +kernel

end Constraint

end PackagePlanner
