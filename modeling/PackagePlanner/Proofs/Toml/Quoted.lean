import Mathlib.Tactic
import PackagePlanner.Toml.Spelling

/-!
A text that is written between quotes is read as it.

* `Glyph`: how one character may be written between double quotes. Both readers with escapes take
  one glyph for its character (`Glyph.basic`, `Glyph.multiBasic`).
* In front of three closing quotes the text itself may end in one or two, so that a quote is read
  for itself unless two more follow in the text (`multiBasic_quote`, `multiLiteral_quote`).
* `quoted?_spellText`: what is written for a text is read as it, whichever form it takes, if no
  quote follows.
-/

namespace PackagePlanner.Toml

/-! ### Characters -/

@[simp] lemma prepend_some (c : Char) (text rest : List Char) :
    prepend (some c) (some (text, rest)) = some (c :: text, rest) := rfl

lemma isText_of_not_isControl {c : Char} (h : isControl c = false) (hline : c ≠ '\n') :
    isText c = true := by
  by_cases htab : c = '\t'
  · simp [isText, htab]
  · simp [isControl, hline, htab] at h
    simp [isText, h]

lemma isText_ne {c : Char} (h : isText c = true) : c ≠ '\n' ∧ c ≠ '\r' := by
  constructor <;> rintro rfl <;> simp [isText] at h

/-- How a character may be written between double quotes. -/
inductive Glyph (c : Char) : List Char → Prop
  | plain : c ≠ '"' → c ≠ '\\' → isText c = true → Glyph c [c]
  | letter {e : Char} : escaped? e = some c → Glyph c ['\\', e]
  | point {a b : Char} : codePoint? ['0', '0', a, b] = some c → Glyph c ['\\', 'u', '0', '0', a, b]

lemma codePoint?_upperHex {n : Nat} (h : n < 128) :
    codePoint? ['0', '0', upperHex (n / 16), upperHex (n % 16)] = some (Char.ofNat n) := by
  have hall : ∀ n < 128, codePoint? ['0', '0', upperHex (n / 16), upperHex (n % 16)] =
      some (Char.ofNat n) := by decide +kernel
  exact hall n h

lemma glyph_escapeChar (c : Char) : Glyph c (escapeChar c) := by
  unfold escapeChar
  split
  · exact .letter rfl
  · exact .letter rfl
  · exact .letter rfl
  · exact .letter rfl
  · exact .letter rfl
  · exact .letter rfl
  · exact .letter rfl
  · split
    · rename_i hcontrol
      have hsmall : c.toNat < 128 := by
        simp only [isControl, Bool.and_eq_true, Bool.or_eq_true, decide_eq_true_eq,
          beq_iff_eq] at hcontrol
        omega
      refine .point ?_
      rw [codePoint?_upperHex hsmall, Char.ofNat_toNat]
    · rename_i hcontrol
      refine .plain ‹_› ‹_› (isText_of_not_isControl (by simpa using hcontrol) ‹_›)

lemma glyph_escapeTab {c : Char} (hquote : c ≠ '"') (hslash : c ≠ '\\') (hline : c ≠ '\n')
    (hcontrol : isControl c = false) : Glyph c (escapeTab c) := by
  rw [escapeTab]
  split
  · rename_i htab
    subst htab
    exact .letter rfl
  · exact .plain hquote hslash (isText_of_not_isControl hcontrol hline)

/-- Characters that stand between double quotes as they are, but for tabs. -/
lemma glyph_of_all {cs : List Char}
    (h : (cs.all fun c => c != '"' && c != '\\' && c != '\n' && !isControl c) = true) :
    ∀ c ∈ cs, Glyph c (escapeTab c) := by
  simp only [List.all_eq_true, Bool.and_eq_true, bne_iff_ne, Bool.not_eq_true', and_assoc] at h
  intro c hc
  obtain ⟨hquote, hslash, hline, hcontrol⟩ := h c hc
  exact glyph_escapeTab hquote hslash hline hcontrol

/-- Characters that stand between apostrophes. -/
lemma isText_of_all {cs : List Char}
    (h : (cs.all fun c => c != '\'' && c != '\n' && !isControl c) = true) :
    ∀ c ∈ cs, c ≠ '\'' ∧ isText c = true := by
  simp only [List.all_eq_true, Bool.and_eq_true, bne_iff_ne, Bool.not_eq_true', and_assoc] at h
  intro c hc
  obtain ⟨hquote, hline, hcontrol⟩ := h c hc
  exact ⟨hquote, isText_of_not_isControl hcontrol hline⟩

/-- A glyph does not begin with a quote. -/
lemma Glyph.ne_quote {c : Char} {g : List Char} (h : Glyph c g) :
    ∃ d more, g = d :: more ∧ d ≠ '"' := by
  cases h with
  | plain hquote => exact ⟨c, [], rfl, hquote⟩
  | letter => exact ⟨'\\', _, rfl, by decide⟩
  | point => exact ⟨'\\', _, rfl, by decide⟩

/-- The letter behind a backslash is neither of a code point nor the end of a line. -/
lemma escaped?_ne {e c : Char} (h : escaped? e = some c) :
    e ≠ 'u' ∧ e ≠ 'U' ∧ ∀ rest, endsLine (e :: rest) = false := by
  have hne (d : Char) (hd : escaped? d = none) : e ≠ d := by
    rintro rfl
    rw [hd] at h
    simp at h
  have hspace : isSpace e = false := by
    simp [isSpace, hne ' ' rfl, hne '\t' rfl]
  exact ⟨hne 'u' rfl, hne 'U' rfl, fun rest => by
    simp [endsLine, hspace, hne '\n' rfl, hne '\r' rfl]⟩

/-! ### Texts on one line -/

lemma Glyph.basic {c : Char} {g : List Char} (h : Glyph c g) (rest : List Char) :
    Toml.basic (g ++ rest) = prepend (some c) (Toml.basic rest) := by
  cases h with
  | plain hquote hslash htext => simp [Toml.basic, *]
  | letter he =>
      obtain ⟨hu, hU, _⟩ := escaped?_ne he
      simp [Toml.basic, he, hu, hU]
  | point hpoint => simp [Toml.basic, hpoint]

lemma basic_flatMap {f : Char → List Char} {cs : List Char} (h : ∀ c ∈ cs, Glyph c (f c))
    (rest : List Char) : basic (cs.flatMap f ++ '"' :: rest) = some (cs, rest) := by
  induction cs with
  | nil => simp [basic]
  | cons c cs ih =>
      obtain ⟨hc, hcs⟩ := List.forall_mem_cons.mp h
      rw [List.flatMap_cons, List.append_assoc, hc.basic, ih hcs, prepend_some]

lemma literal_append {cs : List Char} (h : ∀ c ∈ cs, c ≠ '\'' ∧ isText c = true)
    (rest : List Char) : literal (cs ++ '\'' :: rest) = some (cs, rest) := by
  induction cs with
  | nil => simp [literal]
  | cons c cs ih =>
      obtain ⟨⟨hquote, htext⟩, hcs⟩ := List.forall_mem_cons.mp h
      rw [List.cons_append, literal, if_pos htext, ih hcs, prepend_some]
      exact hquote

/-! ### Texts of several lines -/

/-- A text that does not begin with two quotes. -/
def Free (quote : Char) (cs : List Char) : Prop := ∀ more, cs ≠ quote :: quote :: more

/-- The first two characters tell. -/
lemma Free.append {quote d e : Char} {more : List Char} (h : Free quote (d :: e :: more))
    (tail : List Char) : Free quote (d :: e :: more ++ tail) := by
  intro more' heq
  obtain ⟨rfl, htail⟩ := List.cons.inj heq
  obtain ⟨rfl, _⟩ := List.cons.inj htail
  exact h more rfl

/-- Three quotes before what follows. -/
abbrev close (quote : Char) (rest : List Char) : List Char := quote :: quote :: quote :: rest

lemma hasTriple_tail {quote c : Char} {cs : List Char} (h : hasTriple quote (c :: cs) = false) :
    hasTriple quote cs = false := by
  match cs with
  | [] => rfl
  | [_] => rfl
  | d :: e :: more =>
      rw [hasTriple, Bool.or_eq_false_iff] at h
      exact h.2

lemma free_of_hasTriple {quote : Char} {cs : List Char}
    (h : hasTriple quote (quote :: cs) = false) : Free quote cs := by
  rintro more rfl
  simp [hasTriple] at h

/-- Escaped tabs bring no quotes. -/
lemma eq_cons_of_escapeTab {cs more : List Char} (h : cs.flatMap escapeTab = '"' :: more) :
    ∃ ds, cs = '"' :: ds ∧ ds.flatMap escapeTab = more := by
  cases cs with
  | nil => simp at h
  | cons c ds =>
      rw [List.flatMap_cons, escapeTab] at h
      split at h
      · simp at h
      · obtain ⟨rfl, hmore⟩ := List.cons.inj h
        exact ⟨ds, rfl, hmore⟩

lemma free_escapeTab {cs : List Char} (h : Free '"' cs) : Free '"' (cs.flatMap escapeTab) := by
  intro more heq
  obtain ⟨ds, rfl, hds⟩ := eq_cons_of_escapeTab heq
  obtain ⟨es, rfl, _⟩ := eq_cons_of_escapeTab hds
  exact h es rfl

section Basic

-- the reader has many cases, whose equations are made here once for the lemmas below
attribute [local simp] Toml.multiBasic

variable {rest : List Char}

lemma Glyph.multiBasic {c : Char} {g : List Char} (h : Glyph c g) (more : List Char) :
    Toml.multiBasic false (g ++ more) = prepend (some c) (Toml.multiBasic false more) := by
  cases h with
  | plain hquote hslash htext =>
      obtain ⟨hline, hreturn⟩ := isText_ne htext
      simp [Toml.multiBasic, *]
  | letter he =>
      obtain ⟨hu, hU, hends⟩ := escaped?_ne he
      simp [Toml.multiBasic, he, hu, hU, hends]
  | point hpoint => simp [Toml.multiBasic, hpoint]

lemma multiBasic_line (more : List Char) :
    multiBasic false ('\n' :: more) = prepend (some '\n') (multiBasic false more) := by
  simp [multiBasic]

lemma multiBasic_close (hrest : rest.head? ≠ some '"') :
    multiBasic false (close '"' rest) = some ([], rest) := by
  cases rest with
  | nil => simp [multiBasic]
  | cons c more =>
      have hc : c ≠ '"' := by simpa using hrest
      simp [multiBasic, hc]

/-- A quote is read for itself unless two more follow. -/
lemma multiBasic_free {more : List Char} (h : Free '"' more) :
    multiBasic false ('"' :: more) = prepend (some '"') (multiBasic false more) := by
  simp [multiBasic, isText, h _]

/-- A quote belongs to the text if no two quotes of the text follow. -/
lemma multiBasic_quote {body text : List Char} (hrest : rest.head? ≠ some '"')
    (hfree : Free '"' body) (h : multiBasic false (body ++ close '"' rest) = some (text, rest)) :
    multiBasic false ('"' :: (body ++ close '"' rest)) = some ('"' :: text, rest) := by
  have hend (more : List Char) : rest ≠ '"' :: more := by
    rintro rfl
    simp at hrest
  match body with
  | [] =>
      rw [List.nil_append, multiBasic_close hrest] at h
      obtain ⟨rfl, _⟩ := Prod.mk.inj (Option.some.inj h)
      simp [multiBasic, *]
  | [d] =>
      by_cases hd : d = '"'
      · subst hd
        simp [multiBasic, *] at h ⊢
        simp [← h]
      · have hfree' : Free '"' ([d] ++ close '"' rest) := fun _ heq => hd (List.cons.inj heq).1
        rw [multiBasic_free hfree', h, prepend_some]
  | d :: e :: more =>
      rw [multiBasic_free (hfree.append _), h, prepend_some]

/-- A text without backslashes and without three quotes running, tabs escaped. -/
lemma multiBasic_escapeTab {cs : List Char} (hrest : rest.head? ≠ some '"')
    (h : ∀ c ∈ cs, c ≠ '\\' ∧ isControl c = false) (htriple : hasTriple '"' cs = false) :
    multiBasic false (cs.flatMap escapeTab ++ close '"' rest) = some (cs, rest) := by
  induction cs with
  | nil => exact multiBasic_close hrest
  | cons c cs ih =>
      obtain ⟨⟨hslash, hcontrol⟩, hcs⟩ := List.forall_mem_cons.mp h
      have ih := ih hcs (hasTriple_tail htriple)
      rw [List.flatMap_cons, List.append_assoc]
      by_cases hquote : c = '"'
      · subst hquote
        exact multiBasic_quote hrest (free_escapeTab (free_of_hasTriple htriple)) ih
      · by_cases hline : c = '\n'
        · subst hline
          have hline : escapeTab '\n' = ['\n'] := rfl
          rw [hline, List.singleton_append, multiBasic_line, ih, prepend_some]
        · rw [(glyph_escapeTab hquote hslash hline hcontrol).multiBasic, ih, prepend_some]

/-- Escaped lines begin with a quote only if their text does, and not after two quotes. -/
lemma escapeLines_ne {run : Nat} {cs : List Char} (h : run = 2 ∨ cs.head? ≠ some '"')
    (more : List Char) : escapeLines run cs ≠ '"' :: more := by
  intro heq
  cases cs with
  | nil => simp [escapeLines] at heq
  | cons c ds =>
      by_cases hquote : c = '"'
      · subst hquote
        obtain rfl := h.resolve_right (by simp)
        simp [escapeLines] at heq
      · by_cases hline : c = '\n'
        · subst hline
          simp [escapeLines] at heq
        · obtain ⟨d, tail, hg, hd⟩ := (glyph_escapeChar c).ne_quote
          rw [escapeLines, hg] at heq
          · exact hd (List.cons.inj heq).1
          · exact hquote
          · exact hline

lemma free_escapeLines {run : Nat} (hrun : run = 1 ∨ run = 2) (cs : List Char) :
    Free '"' (escapeLines run cs) := by
  intro more heq
  have hone : run = 1 := hrun.resolve_right fun htwo => escapeLines_ne (.inl htwo) _ heq
  subst hone
  cases cs with
  | nil => simp [escapeLines] at heq
  | cons c ds =>
      by_cases hquote : c = '"'
      · subst hquote
        rw [escapeLines, if_neg (by decide)] at heq
        exact escapeLines_ne (.inl rfl) _ (List.cons.inj heq).2
      · exact escapeLines_ne (.inr (by simpa using hquote)) _ heq

/-- Escaped lines are read as they are. -/
lemma multiBasic_escapeLines (hrest : rest.head? ≠ some '"') (cs : List Char) {run : Nat}
    (hrun : run ≤ 2) :
    multiBasic false (escapeLines run cs ++ close '"' rest) = some (cs, rest) := by
  induction cs generalizing run with
  | nil => exact multiBasic_close hrest
  | cons c cs ih =>
      by_cases hquote : c = '"'
      · subst hquote
        rw [escapeLines]
        split
        · have hread := (Glyph.letter rfl : Glyph '"' ['\\', '"']).multiBasic
            (escapeLines 0 cs ++ close '"' rest)
          rw [ih (Nat.zero_le _), prepend_some] at hread
          exact hread
        · exact multiBasic_quote hrest (free_escapeLines (by omega) cs) (ih (by omega))
      · by_cases hline : c = '\n'
        · subst hline
          simp only [escapeLines, List.cons_append]
          rw [multiBasic_line, ih (Nat.zero_le _), prepend_some]
        · rw [escapeLines, List.append_assoc, (glyph_escapeChar c).multiBasic, ih (Nat.zero_le _),
            prepend_some]
          · exact hquote
          · exact hline

end Basic

section Literal

variable {rest : List Char}

lemma multiLiteral_close (hrest : rest.head? ≠ some '\'') :
    multiLiteral (close '\'' rest) = some ([], rest) := by
  cases rest with
  | nil => simp [multiLiteral]
  | cons c more =>
      have hc : c ≠ '\'' := by simpa using hrest
      simp [multiLiteral, hc]

/-- An apostrophe is read for itself unless two more follow. -/
lemma multiLiteral_free {more : List Char} (h : Free '\'' more) :
    multiLiteral ('\'' :: more) = prepend (some '\'') (multiLiteral more) := by
  simp [multiLiteral, isText, h _]

/-- An apostrophe belongs to the text if no two apostrophes of the text follow. -/
lemma multiLiteral_quote {body : List Char} (hrest : rest.head? ≠ some '\'')
    (hfree : Free '\'' body) (h : multiLiteral (body ++ close '\'' rest) = some (body, rest)) :
    multiLiteral ('\'' :: (body ++ close '\'' rest)) = some ('\'' :: body, rest) := by
  have hend (more : List Char) : rest ≠ '\'' :: more := by
    rintro rfl
    simp at hrest
  match body with
  | [] => simp [multiLiteral, *]
  | [d] =>
      by_cases hd : d = '\''
      · subst hd
        simp [multiLiteral, *]
      · have hfree' : Free '\'' ([d] ++ close '\'' rest) := fun _ heq => hd (List.cons.inj heq).1
        rw [multiLiteral_free hfree', h, prepend_some]
  | d :: e :: more =>
      rw [multiLiteral_free (hfree.append _), h, prepend_some]

/-- A text without three apostrophes running. -/
lemma multiLiteral_append {cs : List Char} (hrest : rest.head? ≠ some '\'')
    (h : ∀ c ∈ cs, isControl c = false) (htriple : hasTriple '\'' cs = false) :
    multiLiteral (cs ++ close '\'' rest) = some (cs, rest) := by
  induction cs with
  | nil => exact multiLiteral_close hrest
  | cons c cs ih =>
      obtain ⟨hcontrol, hcs⟩ := List.forall_mem_cons.mp h
      have ih := ih hcs (hasTriple_tail htriple)
      by_cases hquote : c = '\''
      · subst hquote
        exact multiLiteral_quote hrest (free_of_hasTriple htriple) ih
      · by_cases hline : c = '\n'
        · subst hline
          simp [multiLiteral, ih]
        · have htext := isText_of_not_isControl hcontrol hline
          obtain ⟨_, hreturn⟩ := isText_ne htext
          simp [multiLiteral, *]

end Literal

/-! ### All forms -/

lemma quoted?_basic {more : List Char} (h : Free '"' more) :
    quoted? ('"' :: more) = basic more := by
  simp [quoted?, h _]

lemma quoted?_literal {more : List Char} (h : Free '\'' more) :
    quoted? ('\'' :: more) = literal more := by
  simp [quoted?, h _]

lemma dropLineEnd_eq_self {cs : List Char} (hline : cs.head? ≠ some '\n')
    (hreturn : cs.head? ≠ some '\r') : dropLineEnd cs = cs := by
  unfold dropLineEnd
  split
  · simp at hline
  · simp at hreturn
  · rfl

/-- The text behind three opening quotes, where a first line end does not count. -/
lemma dropLineEnd_triple {cs body tail : List Char}
    (h : '\n' ∉ cs → (body ++ tail).head? ≠ some '\n' ∧ (body ++ tail).head? ≠ some '\r') :
    dropLineEnd ((if cs.contains '\n' then ['\n'] else []) ++ body ++ tail) = body ++ tail := by
  by_cases hline : '\n' ∈ cs
  · simp [hline, dropLineEnd]
  · simp [hline, dropLineEnd_eq_self (h hline).1 (h hline).2]

/-- A text between double quotes on one line, glyph by glyph. -/
lemma quoted?_glyphs {f : Char → List Char} {cs rest : List Char} (h : ∀ c ∈ cs, Glyph c (f c))
    (hquote : rest.head? ≠ some '"') :
    quoted? ('"' :: (cs.flatMap f ++ ['"']) ++ rest) = some (cs, rest) := by
  have hfree : Free '"' (cs.flatMap f ++ '"' :: rest) := by
    intro more heq
    cases cs with
    | nil =>
        rw [(List.cons.inj heq).2] at hquote
        simp at hquote
    | cons c ds =>
        obtain ⟨d, tail, hg, hd⟩ := (h c List.mem_cons_self).ne_quote
        rw [List.flatMap_cons, hg] at heq
        exact hd (List.cons.inj heq).1
  rw [List.cons_append, List.append_assoc, List.singleton_append, quoted?_basic hfree,
    basic_flatMap h]

/-- A text between apostrophes on one line. -/
lemma quoted?_apostrophes {cs rest : List Char} (h : ∀ c ∈ cs, c ≠ '\'' ∧ isText c = true)
    (hapostrophe : rest.head? ≠ some '\'') :
    quoted? ('\'' :: (cs ++ ['\'']) ++ rest) = some (cs, rest) := by
  have hfree : Free '\'' (cs ++ '\'' :: rest) := by
    intro more heq
    cases cs with
    | nil =>
        rw [(List.cons.inj heq).2] at hapostrophe
        simp at hapostrophe
    | cons c ds => exact (h c List.mem_cons_self).1 (List.cons.inj heq).1
  rw [List.cons_append, List.append_assoc, List.singleton_append, quoted?_literal hfree,
    literal_append h]

/-- A text between three double quotes. -/
lemma quoted?_triple_quotes {cs body rest : List Char}
    (hline : '\n' ∉ cs → (body ++ close '"' rest).head? ≠ some '\n' ∧
      (body ++ close '"' rest).head? ≠ some '\r')
    (h : multiBasic false (body ++ close '"' rest) = some (cs, rest)) :
    quoted? (triple '"' cs body ++ rest) = some (cs, rest) := by
  have hspell : triple '"' cs body ++ rest = '"' :: '"' :: '"' ::
      ((if cs.contains '\n' then ['\n'] else []) ++ body ++ close '"' rest) := by
    simp [triple]
  rw [hspell, quoted?, dropLineEnd_triple hline, h]

/-- A text between three apostrophes. -/
lemma quoted?_triple_apostrophes {cs rest : List Char}
    (hline : '\n' ∉ cs → (cs ++ close '\'' rest).head? ≠ some '\n' ∧
      (cs ++ close '\'' rest).head? ≠ some '\r')
    (h : multiLiteral (cs ++ close '\'' rest) = some (cs, rest)) :
    quoted? (triple '\'' cs cs ++ rest) = some (cs, rest) := by
  have hspell : triple '\'' cs cs ++ rest = '\'' :: '\'' :: '\'' ::
      ((if cs.contains '\n' then ['\n'] else []) ++ cs ++ close '\'' rest) := by
    simp [triple]
  rw [hspell, quoted?, dropLineEnd_triple hline, h]

/-- A text without control characters and line feeds has no line ends. -/
lemma ne_lineEnd {cs : List Char} (hcontrol : ∀ c ∈ cs, isControl c = false) (hline : '\n' ∉ cs) :
    ∀ c ∈ cs, c ≠ '\n' ∧ c ≠ '\r' := by
  intro c hc
  refine ⟨fun heq => hline (heq ▸ hc), fun heq => ?_⟩
  have hreturn := hcontrol c hc
  simp [heq, isControl] at hreturn

/-- What is written for a text is read as it. -/
theorem quoted?_spellText {cs rest : List Char} (hquote : rest.head? ≠ some '"')
    (hapostrophe : rest.head? ≠ some '\'') : quoted? (spellText cs ++ rest) = some (cs, rest) := by
  rw [spellText]
  split
  · rename_i h
    exact quoted?_glyphs (glyph_of_all h) hquote
  · split
    · rename_i h
      exact quoted?_apostrophes (isText_of_all h) hapostrophe
    · split
      · rename_i h
        simp only [List.all_eq_true, Bool.and_eq_true, bne_iff_ne, Bool.not_eq_true'] at h
        refine quoted?_triple_quotes (fun hline => ?_) (multiBasic_escapeTab hquote h.1 h.2)
        have hends := ne_lineEnd (fun c hc => (h.1 c hc).2) hline
        cases cs with
        | nil => simp
        | cons c ds =>
            have hc := hends c List.mem_cons_self
            rw [List.flatMap_cons, escapeTab]
            split <;> simp [hc]
      · split
        · rename_i h
          simp only [List.all_eq_true, Bool.and_eq_true, Bool.not_eq_true'] at h
          refine quoted?_triple_apostrophes (fun hline => ?_)
            (multiLiteral_append hapostrophe h.1 h.2)
          have hends := ne_lineEnd h.1 hline
          cases cs with
          | nil => simp
          | cons c ds => simpa using hends c List.mem_cons_self
        · split
          · rename_i h
            refine quoted?_triple_quotes (fun hline => ?_)
              (multiBasic_escapeLines hquote cs (Nat.zero_le _))
            exact absurd (by simpa using h) hline
          · exact quoted?_glyphs (fun c _ => glyph_escapeChar c) hquote

end PackagePlanner.Toml
