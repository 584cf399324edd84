import NaturalLanguage.Proofs.Text.Pieces
import NaturalLanguage.Text.Quoted

/-!
# Quoted texts can be read

In a quoted text a backslash begins the form of a character that is not shown as it is. Quotes and
backslashes are never shown as they are, so a quote without a backslash before it ends the text.
Which of the other characters are hidden behind their forms does not matter, as long as it depends
on the character alone.

* `escapeWith`, `quoteWith`: quoted texts for any choice of hidden characters;
  `quote_eq_quoteWith` says which characters `quote` hides.
* `toDigits_injective`: numbers are determined by their hexadecimal digits.
* `form_append_injective`: a form ends where the next one begins.
* `quoteWith_append_injective`: a quoted text in front of any other text determines both.
-/

namespace NaturalLanguage.Text

namespace Quoted

/-- The characters whose form has a letter, with the letter. -/
def letters : List (Char × Char) :=
  [('"', '"'), ('\\', '\\'), ('\t', 't'), ('\r', 'r'), ('\n', 'n'), (Char.ofNat 0, '0')]

/-- The form of a character that is not shown as it is: a backslash and a letter, or the code
point. -/
def form (c : Char) : List Char :=
  match letters.lookup c with
  | some letter => ['\\', letter]
  | none => codePoint c

/-- The characters for `c` between quotes if, besides quotes and backslashes, those characters have
a form that `hidden` says. -/
def escapeWith (hidden : Char → Bool) (c : Char) : List Char :=
  if c = '"' ∨ c = '\\' ∨ hidden c = true then form c else [c]

/-- Quotes, backslashes and characters without a shape have a form, and no others do. -/
theorem escape_eq_escapeWith (c : Char) : escape c = escapeWith isShapeless c := by
  by_cases hletter : c ∈ letters.map Prod.fst
  · simp only [letters, List.map_cons, List.map_nil, List.mem_cons, List.not_mem_nil,
      or_false] at hletter
    obtain rfl | rfl | rfl | rfl | rfl | rfl := hletter <;> decide
  · have hlookup : letters.lookup c = none := by
      rw [List.lookup_eq_none_iff]
      intro p hp
      rw [bne_iff_ne]
      rintro rfl
      exact hletter (List.mem_map_of_mem hp)
    simp only [letters, List.map_cons, List.map_nil, List.mem_cons, List.not_mem_nil, or_false,
      not_or] at hletter
    simp [escape, escapeWith, form, hlookup, hletter]

/-! ### Digits -/

/-- Numbers are determined by their hexadecimal digits. -/
theorem toDigits_injective {m n : ℕ} (h : Nat.toDigits 16 m = Nat.toDigits 16 n) : m = n := by
  have hdigit : ∀ i < 16, ∀ j < 16, Nat.digitChar i = Nat.digitChar j → i = j := by decide
  have hbase : 1 < 16 := by decide
  have hlong : ∀ (k : ℕ) (x y : Char), Nat.toDigits 16 k ++ [x] ≠ [] ++ [y] := by
    intro k x y heq
    exact Nat.toDigits_ne_nil (List.append_inj' heq rfl).1
  induction m using Nat.strongRecOn generalizing n with
  | ind m ih =>
    obtain hm | hm := Nat.lt_or_ge m 16 <;> obtain hn | hn := Nat.lt_or_ge n 16
    · rw [Nat.toDigits_of_lt_base hm, Nat.toDigits_of_lt_base hn] at h
      exact hdigit m hm n hn (List.singleton_inj.1 h)
    · rw [Nat.toDigits_of_lt_base hm, Nat.toDigits_of_base_le hbase hn] at h
      exact absurd h.symm (hlong (n / 16) _ _)
    · rw [Nat.toDigits_of_base_le hbase hm, Nat.toDigits_of_lt_base hn] at h
      exact absurd h (hlong (m / 16) _ _)
    · rw [Nat.toDigits_of_base_le hbase hm, Nat.toDigits_of_base_le hbase hn] at h
      -- the last digits are the remainders, the other ones are those of the quotients
      obtain ⟨hfront, hlast⟩ := List.append_inj' h rfl
      have hquot : m / 16 = n / 16 := ih (m / 16) (by omega) hfront
      have hrem : m % 16 = n % 16 :=
        hdigit _ (Nat.mod_lt m (by decide)) _ (Nat.mod_lt n (by decide))
          (List.singleton_inj.1 hlast)
      omega

theorem ne_brace_of_mem_toDigits {n : ℕ} {c : Char} (h : c ∈ Nat.toDigits 16 n) :
    c ≠ '\x7d' := by
  induction n using Nat.strongRecOn with
  | ind n ih =>
    obtain hn | hn := Nat.lt_or_ge n 16
    · rw [Nat.toDigits_of_lt_base hn, List.mem_singleton] at h
      exact h ▸ Nat.digitChar_ne '\x7d' rfl
    · rw [Nat.toDigits_of_base_le (by decide) hn, List.mem_append, List.mem_singleton] at h
      obtain h | rfl := h
      · exact ih (n / 16) (by omega) h
      · exact Nat.digitChar_ne '\x7d' rfl

/-! ### Forms -/

variable {c d : Char} {more rest : List Char}

theorem codePoint_append (c : Char) (more : List Char) :
    codePoint c ++ more =
      '\\' :: 'u' :: '\x7b' :: (Nat.toDigits 16 c.toNat ++ '\x7d' :: more) := by
  simp [codePoint]

/-- The brace that closes ends the digits. -/
theorem codePoint_append_injective (h : codePoint c ++ more = codePoint d ++ rest) :
    c = d ∧ more = rest := by
  have hdigits : ∀ n : ℕ, ∀ x ∈ Nat.toDigits 16 n, (x == '\x7d') = false := by
    intro n x hx
    exact beq_eq_false_iff_ne.2 (ne_brace_of_mem_toDigits hx)
  rw [codePoint_append, codePoint_append] at h
  simp only [List.cons.injEq, true_and] at h
  obtain ⟨hcode, hrest⟩ := append_inj_of_separator (hdigits c.toNat) (hdigits d.toNat) rfl rfl h
  exact ⟨Char.toNat_inj.1 (toDigits_injective hcode), (List.cons.inj hrest).2⟩

theorem form_of_letter {letter : Char} (h : letters.lookup c = some letter) :
    form c = ['\\', letter] := by
  rw [form, h]

theorem form_of_no_letter (h : letters.lookup c = none) : form c = codePoint c := by
  rw [form, h]

theorem mem_of_lookup {letter : Char} (h : letters.lookup c = some letter) :
    (c, letter) ∈ letters := by
  obtain ⟨before, after, heq, -⟩ := List.lookup_eq_some_iff.1 h
  rw [heq]
  exact List.mem_append_right _ List.mem_cons_self

/-- A form has an end of its own. -/
theorem form_append_injective (h : form c ++ more = form d ++ rest) : c = d ∧ more = rest := by
  have hletter : ∀ p ∈ letters, ∀ q ∈ letters, p.2 = q.2 → p.1 = q.1 := by decide
  have hnone : ∀ p ∈ letters, p.2 ≠ 'u' := by decide
  cases hc : letters.lookup c with
  | some letter =>
    rw [form_of_letter hc] at h
    cases hd : letters.lookup d with
    | some letter' =>
      rw [form_of_letter hd] at h
      obtain ⟨hletters, hrest⟩ := List.cons.inj (List.cons.inj h).2
      exact ⟨hletter _ (mem_of_lookup hc) _ (mem_of_lookup hd) hletters, hrest⟩
    | none =>
      rw [form_of_no_letter hd, codePoint_append] at h
      exact absurd (List.cons.inj (List.cons.inj h).2).1 (hnone _ (mem_of_lookup hc))
  | none =>
    rw [form_of_no_letter hc] at h
    cases hd : letters.lookup d with
    | some letter =>
      rw [form_of_letter hd, codePoint_append] at h
      exact absurd (List.cons.inj (List.cons.inj h).2).1.symm (hnone _ (mem_of_lookup hd))
    | none =>
      rw [form_of_no_letter hd] at h
      exact codePoint_append_injective h

theorem exists_form (c : Char) : ∃ tail, form c = '\\' :: tail := by
  unfold form
  split
  · exact ⟨_, rfl⟩
  · exact ⟨_, rfl⟩

section Escape

variable {hidden : Char → Bool}

/-- A quote does not begin the characters of any character. -/
theorem escapeWith_append_ne (hidden : Char → Bool) (c : Char) (more rest : List Char) :
    escapeWith hidden c ++ more ≠ '"' :: rest := by
  unfold escapeWith
  intro h
  split at h
  · obtain ⟨tail, htail⟩ := exists_form c
    rw [htail, List.cons_append] at h
    exact absurd (List.cons.inj h).1 (by decide)
  · next hc => exact hc (.inl (List.cons.inj h).1)

/-- A form differs from a character that is shown as it is, since a backslash is not. -/
theorem form_append_ne (hd : ¬ (d = '"' ∨ d = '\\' ∨ hidden d = true)) :
    form c ++ more ≠ [d] ++ rest := by
  intro h
  obtain ⟨tail, htail⟩ := exists_form c
  rw [htail, List.cons_append] at h
  exact hd (.inr (.inl (List.cons.inj h).1.symm))

/-- The characters for one character have an end of their own. -/
theorem escapeWith_append_injective
    (h : escapeWith hidden c ++ more = escapeWith hidden d ++ rest) : c = d ∧ more = rest := by
  unfold escapeWith at h
  split at h <;> split at h
  · exact form_append_injective h
  · next hd => exact absurd h (form_append_ne hd)
  · next hc _ => exact absurd h.symm (form_append_ne hc)
  · exact List.cons.inj h

/-- The first quote that does not belong to a form ends the text. -/
theorem flatMap_escapeWith_append_injective : ∀ {cs ds : List Char},
    cs.flatMap (escapeWith hidden) ++ '"' :: more = ds.flatMap (escapeWith hidden) ++ '"' :: rest →
      cs = ds ∧ more = rest
  | [], [], h => ⟨rfl, (List.cons.inj h).2⟩
  | [], d :: ds, h => by
    rw [List.flatMap_cons, List.append_assoc] at h
    exact absurd h.symm (escapeWith_append_ne hidden d _ _)
  | c :: cs, [], h => by
    rw [List.flatMap_cons, List.append_assoc] at h
    exact absurd h (escapeWith_append_ne hidden c _ _)
  | c :: cs, d :: ds, h => by
    rw [List.flatMap_cons, List.flatMap_cons, List.append_assoc, List.append_assoc] at h
    obtain ⟨rfl, htail⟩ := escapeWith_append_injective h
    obtain ⟨rfl, hrest⟩ := flatMap_escapeWith_append_injective htail
    exact ⟨rfl, hrest⟩

end Escape

end Quoted

/-! ### Quoted texts -/

/-- The text between double quotes, where quotes, backslashes and the characters that `hidden` says
are not shown as they are. -/
def quoteWith (hidden : Char → Bool) (s : String) : String :=
  String.ofList ('"' :: (s.toList.flatMap (Quoted.escapeWith hidden) ++ ['"']))

theorem quote_eq_quoteWith : quote = quoteWith isShapeless := by
  funext s
  have hescape : Quoted.escape = Quoted.escapeWith isShapeless :=
    funext Quoted.escape_eq_escapeWith
  rw [quote, quoteWith, Quoted.encode, hescape]

/-- A quoted text in front of any other text determines both. -/
theorem quoteWith_append_injective (hidden : Char → Bool) {s t : String} {more rest : List Char}
    (h : (quoteWith hidden s).toList ++ more = (quoteWith hidden t).toList ++ rest) :
    s = t ∧ more = rest := by
  simp only [quoteWith, String.toList_ofList, List.cons_append, List.append_assoc,
    List.cons.injEq, true_and, List.nil_append] at h
  obtain ⟨htexts, hrest⟩ := Quoted.flatMap_escapeWith_append_injective h
  exact ⟨String.toList_inj.1 htexts, hrest⟩

end NaturalLanguage.Text
