import NaturalLanguage.Proofs.Weighted.Notation

/-!
# The mistake that is reported for written rows

An alternative that is not well formed has exactly one mistake: either it cannot be read, or its
entry is refused. A grammar is built if all alternatives are well formed. Otherwise the mistake of
the first ill-formed alternative is reported if this alternative cannot be read, or if all later
ones can be read. If its entry is refused and a later alternative cannot be read, then the mistake
of the first such one is reported instead, and it is a different one: what is written for a refused
weight is a number, while the text of an unreadable one is none.

* `Alternative.WellFormed`, `Alternative.Mistake`: alternatives without and with a mistake.
* `ofRows_of_unreadable`, `ofRows_of_refused`: what is reported if some alternative cannot be read,
  and if all can.
* `Entry.Refused.ne_of_unreadable`: a refusal is never mistaken for an unreadable alternative.
* `ofRows_mistakes`: when a mistake is reported, and which one.
-/

namespace NaturalLanguage.WeightedGrammar

open Text

/-! ### Mistakes -/

namespace Alternative

/-- An alternative without a mistake: it ends with a probability in brackets, its head or category
is not blank, and before the brackets stand two symbols or a word. -/
inductive WellFormed : Alternative → Prop
  | rule {head : Symbol} {text before value : String} {p : Float} {left right : Symbol} :
      Brackets (trim text) before value → Decimal.read? (trim value) = some p → InUnit p →
        ¬ Blank head → fields before = [left, right] → WellFormed (.rule head text)
  | word {category : Symbol} {text before value : String} {p : Float} :
      Brackets (trim text) before value → Decimal.read? (trim value) = some p → InUnit p →
        ¬ Blank category → ¬ Blank before → WellFormed (.word category text)

/-- The mistake of an alternative: it cannot be read, or its entry is refused. -/
inductive Mistake : Alternative → GrammarError → Prop
  | unreadable {a : Alternative} {cause : GrammarError} : a.Unreadable cause → Mistake a cause
  | refused {a : Alternative} {entry : Entry} {cause : GrammarError} : a.Reads entry →
      entry.Refused cause → Mistake a cause

/-- What an alternative adds to a grammar, if it is read and checked for itself. -/
def item (a : Alternative) : Except GrammarError Item := a.read >>= Entry.checked

variable {a : Alternative} {entry : Entry} {cause : GrammarError}

theorem Reads.item_eq (h : a.Reads entry) : a.item = entry.checked := by
  rw [item, h.read_eq]
  rfl

theorem Unreadable.item_eq (h : a.Unreadable cause) : a.item = .error cause := by
  rw [item, h.read_eq]
  rfl

theorem mistake_iff : a.Mistake cause ↔ a.item = .error cause := by
  constructor
  · rintro (hunreadable | ⟨hreads, hrefused⟩)
    · exact hunreadable.item_eq
    · exact hreads.item_eq.trans hrefused.checked_eq
  · intro h
    obtain ⟨entry, hreads⟩ | ⟨cause', hunreadable⟩ := a.reads_or_unreadable
    · exact .refused hreads (Entry.checked_eq_error_iff.1 (hreads.item_eq.symm.trans h))
    · obtain rfl := Except.error.inj (hunreadable.item_eq.symm.trans h)
      exact .unreadable hunreadable

/-- Symbols before the brackets are never blank. -/
theorem not_blank_fields {head : Symbol} {before : String} :
    ¬ (Blank head ∨ ∃ sym ∈ fields before, Blank sym) ↔ ¬ Blank head := by
  have hfields : ¬ ∃ sym ∈ fields before, Blank sym := by
    rintro ⟨sym, hsym, hblank⟩
    have hfield := isField_of_mem_fields hsym
    have htrim := trim_of_forall hfield.2
    rw [trim_eq_empty_iff.2 hblank] at htrim
    exact hfield.1 htrim.symm
  simp only [hfields, or_false]

theorem wellFormed_iff : a.WellFormed ↔ ∃ item, a.item = .ok item := by
  constructor
  · rintro (⟨hbrackets, hvalue, hp, hhead, hbody⟩ | ⟨hbrackets, hvalue, hp, hcategory, hword⟩)
    · rw [(Reads.rule hbrackets hvalue).item_eq, Entry.exists_checked_rule_iff, not_blank_fields,
        hbody]
      exact ⟨hhead, hp, rfl⟩
    · rw [(Reads.word hbrackets hvalue).item_eq, Entry.exists_checked_word_iff,
        ← trim_eq_empty_iff (s := trim _), trim_trim, trim_eq_empty_iff]
      exact ⟨hcategory, hword, hp⟩
  · rintro ⟨item, h⟩
    obtain ⟨entry, hreads⟩ | ⟨cause, hunreadable⟩ := a.reads_or_unreadable
    · have hchecked : ∃ item, entry.checked = .ok item := ⟨item, hreads.item_eq.symm.trans h⟩
      cases hreads with
      | rule hbrackets hvalue =>
        rw [Entry.exists_checked_rule_iff, not_blank_fields] at hchecked
        obtain ⟨hhead, hp, hbody⟩ := hchecked
        obtain ⟨left, right, hbody⟩ := List.length_eq_two.1 hbody
        exact .rule hbrackets hvalue hp hhead hbody
      | word hbrackets hvalue =>
        rw [Entry.exists_checked_word_iff, ← trim_eq_empty_iff (s := trim _), trim_trim,
          trim_eq_empty_iff] at hchecked
        obtain ⟨hcategory, hword, hp⟩ := hchecked
        exact .word hbrackets hvalue hp hcategory hword
    · cases hunreadable.item_eq.symm.trans h

/-- An alternative that is not well formed has exactly one mistake. -/
theorem not_wellFormed_iff : ¬ a.WellFormed ↔ ∃! cause, a.Mistake cause := by
  simp only [wellFormed_iff, mistake_iff]
  cases a.item with
  | error cause => simp [ExistsUnique]
  | ok item => simp [ExistsUnique]

theorem WellFormed.exists_reads (h : a.WellFormed) : ∃ entry, a.Reads entry := by
  obtain ⟨hbrackets, hvalue, -⟩ | ⟨hbrackets, hvalue, -⟩ := h
  · exact ⟨_, .rule hbrackets hvalue⟩
  · exact ⟨_, .word hbrackets hvalue⟩

end Alternative

/-- What is refused for its weight is written as a number, so that no unreadable alternative is
reported in the same way. -/
theorem Entry.Refused.ne_of_unreadable {entry : Entry} {a : Alternative}
    {cause later : GrammarError} (h : entry.Refused cause) (hlater : a.Unreadable later) :
    later ≠ cause := by
  have hplain : ∀ (p : Float) (value : String), Decimal.read? (trim value) = none →
      trim value ≠ Decimal.plain p := by
    intro p value hvalue heq
    have hread := Decimal.isSome_read?_plain p
    rw [← heq, hvalue] at hread
    cases hread
  cases hlater with
  | noBrackets _ => cases h <;> simp
  -- only here both causes can be a bad probability
  | noNumber _ hvalue => cases h <;> simp [hplain _ _ hvalue]

/-! ### What is reported -/

section Reported

variable {start : Symbol} {rules lexicon : List Grammar.Row} {before after : List Alternative}
  {a : Alternative} {entry : Entry} {cause : GrammarError}

/-- The first alternative that cannot be read decides what is reported, whatever is refused before
or after it. -/
theorem ofRows_of_unreadable (h : alternatives rules lexicon = before ++ a :: after)
    (hbefore : ∀ b ∈ before, ∃ entry, b.Reads entry) (ha : a.Unreadable cause) :
    ofRows start rules lexicon = .error cause := by
  have hread : (alternatives rules lexicon).mapM Alternative.read = .error cause :=
    mapM_eq_error_iff.2 ⟨before, a, after, h, fun b hb => by
      obtain ⟨entry, hreads⟩ := hbefore b hb
      exact ⟨entry, hreads.read_eq⟩, ha.read_eq⟩
  rw [ofRows_eq_bind, hread]
  rfl

/-- Alternatives that can all be read build a grammar of what each of them adds. -/
theorem ofRows_eq_mapM_item (h : ∀ a ∈ alternatives rules lexicon, ∃ entry, a.Reads entry) :
    ofRows start rules lexicon =
      ((alternatives rules lexicon).mapM Alternative.item).map (ofItems start) := by
  obtain ⟨entries, hentries⟩ : ∃ entries,
      (alternatives rules lexicon).mapM Alternative.read = .ok entries :=
    exists_mapM_eq_ok_iff.2 fun a ha => by
      obtain ⟨entry, hreads⟩ := h a ha
      exact ⟨entry, hreads.read_eq⟩
  have hitems : (alternatives rules lexicon).mapM Alternative.item =
      entries.mapM Entry.checked :=
    mapM_congr_of_forall₂ ((mapM_eq_ok_iff.1 hentries).imp fun _ _ hread =>
      (Alternative.read_eq_ok_iff.1 hread).item_eq)
  rw [ofRows_eq_bind, hentries, hitems]
  rfl

/-- If all alternatives can be read, then the first one whose entry is refused decides what is
reported. -/
theorem ofRows_of_refused (h : alternatives rules lexicon = before ++ a :: after)
    (hbefore : ∀ b ∈ before, b.WellFormed) (hreads : a.Reads entry) (hrefused : entry.Refused cause)
    (hafter : ∀ b ∈ after, ∃ entry, b.Reads entry) :
    ofRows start rules lexicon = .error cause := by
  have hreadable : ∀ b ∈ alternatives rules lexicon, ∃ entry, b.Reads entry := by
    rw [h]
    refine List.forall_mem_append.2 ⟨fun b hb => (hbefore b hb).exists_reads, ?_⟩
    exact List.forall_mem_cons.2 ⟨⟨entry, hreads⟩, hafter⟩
  have hitem : (alternatives rules lexicon).mapM Alternative.item = .error cause :=
    mapM_eq_error_iff.2 ⟨before, a, after, h,
      fun b hb => Alternative.wellFormed_iff.1 (hbefore b hb),
      hreads.item_eq.trans hrefused.checked_eq⟩
  rw [ofRows_eq_mapM_item hreadable, hitem]
  rfl

/-- An alternative whose entry is refused is not reported if a later one cannot be read: the first
of those is reported, for a different cause. -/
theorem ofRows_of_masked {middle rest : List Alternative} {later : GrammarError} {b : Alternative}
    (h : alternatives rules lexicon = before ++ a :: (middle ++ b :: rest))
    (hbefore : ∀ c ∈ before, c.WellFormed) (hreads : a.Reads entry) (hrefused : entry.Refused cause)
    (hmiddle : ∀ c ∈ middle, ∃ entry, c.Reads entry) (hb : b.Unreadable later) :
    ofRows start rules lexicon = .error later ∧ later ≠ cause := by
  refine ⟨?_, hrefused.ne_of_unreadable hb⟩
  -- the refused alternative can be read, so that it is one of those before `b`
  have hsplit : alternatives rules lexicon = (before ++ a :: middle) ++ b :: rest := by simp [h]
  refine ofRows_of_unreadable hsplit (List.forall_mem_append.2 ⟨?_, ?_⟩) hb
  · exact fun c hc => (hbefore c hc).exists_reads
  · exact List.forall_mem_cons.2 ⟨⟨entry, hreads⟩, hmiddle⟩

/-- Among alternatives that cannot all be read there is a first one that cannot. -/
theorem exists_first_unreadable {written : List Alternative}
    (h : ¬ ∀ a ∈ written, ∃ entry, a.Reads entry) :
    ∃ (middle rest : List Alternative) (a : Alternative) (later : GrammarError),
      written = middle ++ a :: rest ∧ (∀ b ∈ middle, ∃ entry, b.Reads entry) ∧
        a.Unreadable later := by
  simp only [← Alternative.read_eq_ok_iff, ← exists_mapM_eq_ok_iff] at h
  cases hread : written.mapM Alternative.read with
  | ok entries => exact absurd ⟨entries, hread⟩ h
  | error later =>
    obtain ⟨middle, a, rest, hsplit, hmiddle, ha⟩ := mapM_eq_error_iff.1 hread
    simp only [Alternative.read_eq_ok_iff] at hmiddle
    exact ⟨middle, rest, a, later, hsplit, hmiddle, Alternative.read_eq_error_iff.1 ha⟩

/-- A grammar is built if all alternatives are well formed. -/
theorem exists_ofRows_iff : (∃ g, ofRows start rules lexicon = .ok g) ↔
    ∀ a ∈ alternatives rules lexicon, a.WellFormed := by
  constructor
  · rintro ⟨g, hg⟩
    have hreadable : ∀ a ∈ alternatives rules lexicon, ∃ entry, a.Reads entry := by
      cases hread : (alternatives rules lexicon).mapM Alternative.read with
      | error cause =>
        rw [ofRows_eq_bind, hread] at hg
        cases hg
      | ok entries =>
        simpa only [Alternative.read_eq_ok_iff] using exists_mapM_eq_ok_iff.1 ⟨entries, hread⟩
    rw [ofRows_eq_mapM_item hreadable] at hg
    cases hitem : (alternatives rules lexicon).mapM Alternative.item with
    | error cause =>
      rw [hitem] at hg
      cases hg
    | ok items =>
      simpa only [Alternative.wellFormed_iff] using exists_mapM_eq_ok_iff.1 ⟨items, hitem⟩
  · intro h
    obtain ⟨items, hitems⟩ :=
      exists_mapM_eq_ok_iff.2 fun a ha => Alternative.wellFormed_iff.1 (h a ha)
    exact ⟨ofItems start items, by
      rw [ofRows_eq_mapM_item fun a ha => (h a ha).exists_reads, hitems]
      rfl⟩

end Reported

/-- Reading rows alternative by alternative, and taking every entry as soon as it is read, comes to
the same as reading everything before an entry is checked. A grammar is built exactly if every
alternative is well formed, and an alternative that is not has exactly one mistake. The mistake of
the first such alternative is what is reported exactly if this alternative cannot be read or all
later ones can. Otherwise the first later one that cannot be read is reported, and for a different
cause. -/
theorem ofRows_mistakes (start : Symbol) (rules lexicon : List Grammar.Row) :
    readRows start rules lexicon = ofRows start rules lexicon ∧
      ((∃ g, ofRows start rules lexicon = .ok g) ↔
        ∀ a ∈ alternatives rules lexicon, a.WellFormed) ∧
      (∀ a : Alternative, ¬ a.WellFormed ↔ ∃! cause, a.Mistake cause) ∧
      ∀ (before after : List Alternative) (first : Alternative) (cause : GrammarError),
        alternatives rules lexicon = before ++ first :: after → (∀ a ∈ before, a.WellFormed) →
          first.Mistake cause →
            (ofRows start rules lexicon = .error cause ↔
              first.Unreadable cause ∨ ∀ a ∈ after, ∃ entry, a.Reads entry) ∧
            ∀ (middle rest : List Alternative) (a : Alternative) (later : GrammarError),
              after = middle ++ a :: rest → (∀ b ∈ middle, ∃ entry, b.Reads entry) →
                a.Unreadable later → ¬ first.Unreadable cause →
                  ofRows start rules lexicon = .error later ∧ later ≠ cause := by
  refine ⟨readRows_eq start rules lexicon, exists_ofRows_iff,
    fun a => Alternative.not_wellFormed_iff, ?_⟩
  intro before after first cause hsplit hbefore hfirst
  obtain hunreadable | ⟨hreads, hrefused⟩ := hfirst
  · have hreported : ofRows start rules lexicon = .error cause :=
      ofRows_of_unreadable hsplit (fun a ha => (hbefore a ha).exists_reads) hunreadable
    refine ⟨iff_of_true hreported (.inl hunreadable), ?_⟩
    exact fun _ _ _ _ _ _ _ hreadable => absurd hunreadable hreadable
  · constructor
    · constructor
      · intro hreported
        by_contra hno
        -- some later alternative cannot be read, and the first of those is reported
        obtain ⟨middle, rest, a, later, rfl, hmiddle, ha⟩ :=
          exists_first_unreadable fun hafter => hno (.inr hafter)
        obtain ⟨hlater, hne⟩ := ofRows_of_masked hsplit hbefore hreads hrefused hmiddle ha
        exact hne (Except.error.inj (hlater.symm.trans hreported))
      · rintro (hunreadable | hafter)
        · exact absurd rfl (hrefused.ne_of_unreadable hunreadable)
        · exact ofRows_of_refused hsplit hbefore hreads hrefused hafter
    · rintro middle rest a later rfl hmiddle ha -
      exact ofRows_of_masked hsplit hbefore hreads hrefused hmiddle ha

/-! ### A mistake that is not reported -/

/-- An alternative with three symbols. -/
def threeSymbols : Alternative := .rule "S" "NP VP PP [0.5] "

/-- An alternative without brackets. -/
def noBrackets : Alternative := .rule "S" " NP VP"

/-- An alternative with a number above one. -/
def largeNumber : Alternative := .rule "S" " NP VP [2]"

/-- A row of an alternative that is refused and one that cannot be read. -/
def maskedRules : List Grammar.Row := [("S", "NP VP PP [0.5] | NP VP")]

/-- A row of two alternatives that are refused. -/
def refusedRules : List Grammar.Row := [("S", "NP VP PP [0.5] | NP VP [2]")]

theorem alternatives_maskedRules : alternatives maskedRules [] = [threeSymbols, noBrackets] := by
  decide +kernel

theorem alternatives_refusedRules :
    alternatives refusedRules [] = [threeSymbols, largeNumber] := by
  decide +kernel

theorem reads_threeSymbols : ∃ entry, threeSymbols.Reads entry ∧
    entry.Refused (.notBinary "S" ["NP", "VP", "PP"]) := by
  have hbrackets : Brackets (trim "NP VP PP [0.5] ") "NP VP PP " "0.5" :=
    ⟨by decide +kernel, by decide⟩
  have hnumber : (Decimal.read? (trim "0.5")).any isProbability = true := by decide +kernel
  obtain ⟨p, hvalue, hp⟩ := (Option.any_eq_true _ _).1 hnumber
  have hnames : ¬ (Blank "S" ∨ ∃ sym ∈ fields "NP VP PP ", Blank sym) := by decide +kernel
  have hcause : GrammarError.notBinary (trim "S") ((fields "NP VP PP ").map trim) =
      .notBinary "S" ["NP", "VP", "PP"] := by decide +kernel
  refine ⟨_, .rule hbrackets hvalue, ?_⟩
  rw [← hcause]
  exact .notBinary hnames (isProbability_iff.1 hp) (by decide +kernel)

theorem unreadable_noBrackets : noBrackets.Unreadable (.missingProbability "S" "NP VP") := by
  have htrim : trim " NP VP" = "NP VP" := by decide +kernel
  have hnone : ¬ ∃ before value, trim " NP VP" = before ++ "[" ++ value ++ "]" := by
    rintro ⟨before, value, h⟩
    have hmem : '[' ∈ (before ++ "[" ++ value ++ "]").toList := by simp
    rw [← h] at hmem
    exact absurd hmem (by decide +kernel)
  have hunreadable := Alternative.Unreadable.noBrackets (a := noBrackets) hnone
  rwa [noBrackets, Alternative.text, htrim] at hunreadable

theorem reads_largeNumber : ∃ entry, largeNumber.Reads entry := by
  have hnumber : (Decimal.read? (trim "2")).isSome := by decide +kernel
  obtain ⟨p, hvalue⟩ := Option.isSome_iff_exists.1 hnumber
  have hbrackets : Brackets (trim " NP VP [2]") "NP VP " "2" := ⟨by decide +kernel, by decide⟩
  exact ⟨_, .rule hbrackets hvalue⟩

/-- The first alternative has three symbols, but what is reported is that the second one has no
brackets. -/
theorem maskedRules_reports_later :
    alternatives maskedRules [] = [threeSymbols, noBrackets] ∧
      threeSymbols.Mistake (.notBinary "S" ["NP", "VP", "PP"]) ∧
      ofRows "S" maskedRules [] = .error (.missingProbability "S" "NP VP") ∧
      ofRows "S" maskedRules [] ≠ .error (.notBinary "S" ["NP", "VP", "PP"]) := by
  obtain ⟨entry, hreads, hrefused⟩ := reads_threeSymbols
  have hsplit : alternatives maskedRules [] = [threeSymbols] ++ noBrackets :: [] :=
    alternatives_maskedRules
  have hfirst : ∀ a ∈ [threeSymbols], ∃ entry, a.Reads entry :=
    List.forall_mem_singleton.2 ⟨entry, hreads⟩
  have hreported : ofRows "S" maskedRules [] = .error (.missingProbability "S" "NP VP") :=
    ofRows_of_unreadable hsplit hfirst unreadable_noBrackets
  refine ⟨alternatives_maskedRules, .refused hreads hrefused, hreported, ?_⟩
  rw [hreported]
  simp

theorem ofRows_mistakes_masked :
    threeSymbols.Mistake (.notBinary "S" ["NP", "VP", "PP"]) ∧
      noBrackets.Unreadable (.missingProbability "S" "NP VP") ∧
      ofRows "S" maskedRules [] = .error (.missingProbability "S" "NP VP") ∧
      ofRows "S" refusedRules [] = .error (.notBinary "S" ["NP", "VP", "PP"]) := by
  obtain ⟨entry, hreads, hrefused⟩ := reads_threeSymbols
  have hmistake := Alternative.Mistake.refused hreads hrefused
  have hreadable : ¬ threeSymbols.Unreadable (.notBinary "S" ["NP", "VP", "PP"]) := nofun
  refine ⟨hmistake, unreadable_noBrackets, ?_, ?_⟩
  · have hmasked := (ofRows_mistakes "S" maskedRules []).2.2.2 [] _ _ _ alternatives_maskedRules
      nofun hmistake
    exact (hmasked.2 [] _ _ _ rfl nofun unreadable_noBrackets hreadable).1
  · have hrefusedFirst := (ofRows_mistakes "S" refusedRules []).2.2.2 [] _ _ _
      alternatives_refusedRules nofun hmistake
    exact hrefusedFirst.1.2 (.inr (List.forall_mem_singleton.2 reads_largeNumber))

end NaturalLanguage.WeightedGrammar
