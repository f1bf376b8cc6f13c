import ScriptMachine.Machine.Display
import ScriptMachine.Proofs.Source.Lexing
import ScriptMachine.Text.Quoted

/-!
# Strings as they are shown

A report shows a string between quotes, with escapes for what would not show. The lexer knows the short
escapes and refuses any other, so what a report shows is read as one literal with the same value, or it
is no text of the language: a character that is written by its code point has an escape that the lexer
does not know.
-/

namespace ScriptMachine.Source

open Text

/-! ## Single characters -/

/-- The character is written by its code point. -/
def ByCode (c : Char) : Prop :=
  quoteChar c = ['\\', 'u', '{'] ++ hex c.toNat ++ ['}']

instance (c : Char) : Decidable (ByCode c) :=
  inferInstanceAs (Decidable (_ = _))

/-- A character is written by a short escape, by its code point, or as it is. -/
theorem quoteChar_cases (c : Char) :
    (∃ e, shortEscape? c = some e ∧ quoteChar c = ['\\', e]) ∨ ByCode c ∨
      shortEscape? c = none ∧ quoteChar c = [c] := by
  unfold ByCode quoteChar
  cases hshort : shortEscape? c with
  | some e => exact .inl ⟨e, rfl, rfl⟩
  | none =>
    right
    by_cases hidden : isHidden c = true
    · exact .inl (if_pos hidden)
    · exact .inr ⟨rfl, if_neg hidden⟩

/-- A character without a short escape is neither a quote nor a backslash. -/
theorem ne_of_shortEscape?_eq_none {c : Char} (h : shortEscape? c = none) : c ≠ '"' ∧ c ≠ '\\' := by
  constructor <;>
  · rintro rfl
    cases h

/-- The characters with a short escape, each with the letter of its escape. -/
theorem shortEscape?_eq_some {c e : Char} (h : shortEscape? c = some e) :
    (c, e) ∈ [('"', '"'), ('\\', '\\'), ('\t', 't'), ('\r', 'r'), ('\n', 'n'), ('\x00', '0')] := by
  unfold shortEscape? at h
  split at h <;> cases h <;> decide

/-! ## Reading -/

/-- A character that is not written by its code point is taken as a part of the contents. -/
theorem readContents_quoteChar {c : Char} (hc : ¬ByCode c) (o : Position) (done r : List Char) :
    readContents o done (quoteChar c ++ r) = readContents o ((quoteChar c).reverse ++ done) r := by
  rcases quoteChar_cases c with ⟨e, hshort, heq⟩ | hcode | ⟨hshort, heq⟩
  · have he : isEscapable e = true := by
      have hpair := shortEscape?_eq_some hshort
      simp only [List.mem_cons, Prod.mk.injEq, List.not_mem_nil, or_false] at hpair
      rcases hpair with ⟨-, rfl⟩ | ⟨-, rfl⟩ | ⟨-, rfl⟩ | ⟨-, rfl⟩ | ⟨-, rfl⟩ | ⟨-, rfl⟩ <;> rfl
    rw [heq]
    change readContents o done ('\\' :: e :: r) = readContents o (e :: '\\' :: done) r
    rw [readContents, if_pos he]
  · exact absurd hcode hc
  · obtain ⟨hquote, hslash⟩ := ne_of_shortEscape?_eq_none hshort
    rw [heq]
    exact readContents_plain hquote hslash o done r

/-- So are all of them. -/
theorem readContents_quoted {s : List Char} (hs : ∀ c ∈ s, ¬ByCode c) (o : Position)
    (done r : List Char) : readContents o done (s.flatMap quoteChar ++ r) =
      readContents o ((s.flatMap quoteChar).reverse ++ done) r := by
  induction s generalizing done with
  | nil => rfl
  | cons c s ih =>
    obtain ⟨hc, hrest⟩ := List.forall_mem_cons.1 hs
    rw [List.flatMap_cons, List.append_assoc, readContents_quoteChar hc, ih hrest,
      List.reverse_append, List.append_assoc]

/-- The escape of a code point is refused at its letter. -/
theorem readContents_byCode {c : Char} (hc : ByCode c) (o : Position) (done r : List Char) :
    readContents o done (quoteChar c ++ r) =
      .error ⟨.invalidEscape 'u', o.after ('"' :: done.reverse ++ ['\\'])⟩ := by
  rw [show quoteChar c = '\\' :: 'u' :: ('{' :: (hex c.toNat ++ ['}'])) from hc]
  rfl

/-! ## Values -/

/-- What is written for a character has it as its value. -/
theorem unescapeOnto_quoteChar {c : Char} (hc : ¬ByCode c) (done r : List Char) :
    unescapeOnto done (quoteChar c ++ r) = unescapeOnto (c :: done) r := by
  rcases quoteChar_cases c with ⟨e, hshort, heq⟩ | hcode | ⟨hshort, heq⟩
  · have hpair := shortEscape?_eq_some hshort
    simp only [List.mem_cons, Prod.mk.injEq, List.not_mem_nil, or_false] at hpair
    rw [heq]
    rcases hpair with ⟨rfl, rfl⟩ | ⟨rfl, rfl⟩ | ⟨rfl, rfl⟩ | ⟨rfl, rfl⟩ | ⟨rfl, rfl⟩ | ⟨rfl, rfl⟩ <;>
      rfl
  · exact absurd hcode hc
  · obtain ⟨-, hslash⟩ := ne_of_shortEscape?_eq_none hshort
    rw [heq, List.singleton_append]
    conv => lhs; unfold unescapeOnto
    split <;> simp_all

/-- What is written for a text has it as its value. -/
theorem unescapeOnto_quoted {s : List Char} (hs : ∀ c ∈ s, ¬ByCode c) (done : List Char) :
    unescapeOnto done (s.flatMap quoteChar) = done.reverse ++ s := by
  induction s generalizing done with
  | nil => simp [unescapeOnto]
  | cons c s ih =>
    obtain ⟨hc, hrest⟩ := List.forall_mem_cons.1 hs
    rw [List.flatMap_cons, unescapeOnto_quoteChar hc, ih hrest, List.reverse_cons,
      List.append_assoc, List.singleton_append]

/-! ## Texts -/

/-- A text in quotes is read as a literal. -/
theorem lex_quote (s : String) :
    lex (quote s) =
      match readContents .start [] (s.toList.flatMap quoteChar ++ ['"']) with
      | .error e => .error e
      | .ok (raw, rest) =>
        lexFrom [⟨.text (String.ofList raw), .start⟩]
          (Position.start.after ('"' :: raw ++ ['"'])) rest := by
  have hgap : skipGap .blank .start ('"' :: (s.toList.flatMap quoteChar ++ ['"'])) =
      .ok (.start, '"' :: (s.toList.flatMap quoteChar ++ ['"'])) :=
    skipGap_token (by decide) (fun h => absurd h (by decide)) (fun h => absurd h (by decide)) _
  have htoken : ∀ r, readToken .start '"' r =
      match readContents .start [] r with
      | .error e => .error e
      | .ok (raw, rest) => .ok ⟨.text (String.ofList raw), '"' :: raw ++ ['"'], rest⟩ := fun r => by
    unfold readToken
    rw [if_neg (by decide), if_neg (by decide)]
    exact if_pos rfl
  rw [lex, quote, String.toList_ofList, List.cons_append, lexFrom_eq, hgap]
  dsimp only
  rw [htoken]
  cases readContents .start [] (s.toList.flatMap quoteChar ++ ['"']) <;> rfl

/-- Without code points a text in quotes is a single literal with the text as its value. -/
theorem lex_quote_of_plain {s : String} (hs : ∀ c ∈ s.toList, ¬ByCode c) :
    ∃ raw, lex (quote s) =
        .ok ⟨[⟨.text raw, .start⟩], Position.start.after (quote s).toList⟩ ∧ unescape raw = s := by
  refine ⟨String.ofList (s.toList.flatMap quoteChar), ?_, ?_⟩
  · rw [lex_quote, readContents_quoted hs]
    have hclose : readContents .start ((s.toList.flatMap quoteChar).reverse ++ []) ['"'] =
        .ok (s.toList.flatMap quoteChar, []) := by
      simp [readContents]
    rw [hclose]
    dsimp only
    rw [lexFrom_eq, quote, String.toList_ofList]
    rfl
  · rw [unescape, String.toList_ofList, unescapeOnto_quoted hs]
    simp

/-- The first code point is refused at its letter. -/
theorem lex_quote_of_byCode {s : String} {before after : List Char} {c : Char}
    (hs : s.toList = before ++ c :: after) (hbefore : ∀ d ∈ before, ¬ByCode d) (hc : ByCode c) :
    lex (quote s) = .error ⟨.invalidEscape 'u',
      Position.start.after ('"' :: before.flatMap quoteChar ++ ['\\'])⟩ := by
  have hcontents : s.toList.flatMap quoteChar ++ ['"'] =
      before.flatMap quoteChar ++ (quoteChar c ++ (after.flatMap quoteChar ++ ['"'])) := by
    rw [hs, List.flatMap_append, List.flatMap_cons, List.append_assoc, List.append_assoc]
  rw [lex_quote, hcontents, readContents_quoted hbefore, readContents_byCode hc]
  simp

/-- A report shows the content of a string in quotes. -/
theorem repr_of_content? {l : Legend} {v : Value} {s : String} (h : l.heap.content? v = some s) :
    l.repr v = quote s := by
  obtain ⟨handle, hhandle, hs⟩ := Option.bind_eq_some_iff.1 h
  unfold Value.asString? at hhandle
  split at hhandle
  · next hkind =>
    cases hhandle
    rw [Legend.repr, if_pos hkind, hs]
    rfl
  · cases hhandle

/-- What a report shows for a string reads back as it, or is refused. If no character is written by its
code point, it is a single literal, with the string as its value. Otherwise the lexer refuses the
escape of the first one that is. So where it is made of tokens at all, these are one literal with the
value of the string. -/
theorem echo_reads_back {l : Legend} {v : Value} {s : String} (h : l.heap.content? v = some s) :
    ((∀ c ∈ s.toList, ¬ByCode c) → ∃ raw, lex (l.repr v) =
      .ok ⟨[⟨.text raw, .start⟩], Position.start.after (l.repr v).toList⟩ ∧ unescape raw = s) ∧
    ((∃ c ∈ s.toList, ByCode c) → ∃ before c after, s.toList = before ++ c :: after ∧
      (∀ d ∈ before, ¬ByCode d) ∧ ByCode c ∧ lex (l.repr v) = .error ⟨.invalidEscape 'u',
        Position.start.after ('"' :: before.flatMap quoteChar ++ ['\\'])⟩) ∧
    ∀ stream, lex (l.repr v) = .ok stream →
      ∃ raw, stream.lexemes = [⟨.text raw, .start⟩] ∧ unescape raw = s := by
  have hrefused : (∃ c ∈ s.toList, ByCode c) → ∃ before c after, s.toList = before ++ c :: after ∧
      (∀ d ∈ before, ¬ByCode d) ∧ ByCode c ∧ lex (quote s) = .error ⟨.invalidEscape 'u',
        Position.start.after ('"' :: before.flatMap quoteChar ++ ['\\'])⟩ := by
    intro hsome
    obtain ⟨c, hfirst⟩ := Option.isSome_iff_exists.1
      (List.find?_isSome (p := fun c => decide (ByCode c)).2 (by simpa using hsome))
    obtain ⟨hc, before, after, hs, hbefore⟩ := List.find?_eq_some_iff_append.1 hfirst
    have hbefore' : ∀ d ∈ before, ¬ByCode d := fun d hd => by simpa using hbefore d hd
    have hc' : ByCode c := of_decide_eq_true hc
    exact ⟨before, c, after, hs, hbefore', hc', lex_quote_of_byCode hs hbefore' hc'⟩
  rw [repr_of_content? h]
  refine ⟨lex_quote_of_plain, hrefused, fun stream hlex => ?_⟩
  by_cases hsome : ∃ c ∈ s.toList, ByCode c
  · obtain ⟨before, c, after, -, -, -, herror⟩ := hrefused hsome
    rw [herror] at hlex
    cases hlex
  · obtain ⟨raw, hok, hraw⟩ := lex_quote_of_plain fun c hc hcode => hsome ⟨c, hc, hcode⟩
    rw [hok] at hlex
    cases hlex
    exact ⟨raw, rfl, hraw⟩

/-- A string with the text of an escape in it, and one with a bell. -/
def echoedStrings : Legend where
  heap := { Heap.empty with strings := #["\"\\u\x7b7\x7d\"\n", "bell \x07"] }
  primitiveName? _ := none

theorem echo_reads_back_escapes :
    (∃ raw, lex (echoedStrings.repr (.string 0)) = .ok ⟨[⟨.text raw, .start⟩],
        Position.start.after (echoedStrings.repr (.string 0)).toList⟩ ∧
      unescape raw = "\"\\u\x7b7\x7d\"\n") ∧
      ∃ p, lex (echoedStrings.repr (.string 1)) = .error ⟨.invalidEscape 'u', p⟩ := by
  have hfirst : echoedStrings.heap.content? (.string 0) = some "\"\\u\x7b7\x7d\"\n" := by decide
  have hsecond : echoedStrings.heap.content? (.string 1) = some "bell \x07" := by decide
  have hplain : "\"\\u\x7b7\x7d\"\n".toList.all (fun c => ¬ByCode c) = true := by decide +kernel
  have hbell : ∃ c ∈ "bell \x07".toList, ByCode c := ⟨'\x07', by decide, by decide +kernel⟩
  refine ⟨(echo_reads_back hfirst).1 fun c hc => of_decide_eq_true (List.all_eq_true.1 hplain c hc), ?_⟩
  obtain ⟨before, -, -, -, -, -, hlex⟩ := (echo_reads_back hsecond).2.1 hbell
  exact ⟨_, hlex⟩

end ScriptMachine.Source
