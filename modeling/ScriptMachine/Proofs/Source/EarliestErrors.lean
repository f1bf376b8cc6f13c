import ScriptMachine.Proofs.Source.Foresight
import ScriptMachine.Proofs.Source.Places
import ScriptMachine.Proofs.Scoping.Order

/-!
# Errors at the earliest token

A text with a syntax error is read up to the token that the error is reported at: the tokens before it
begin a fragment, and together with it they begin none. What carries the proof is that the tokens of
fragments are those on which the machine comes to the end of its goals, and that from every stack which
it gets to it can still come there.
-/

namespace ScriptMachine.Source

open Scoping (Before before_after)

/-! ## Fragments and the machine -/

/-- These are the tokens of a text that holds a fragment. -/
def Accepted (ts : List Token) : Prop :=
  ∃ text stream f, lex text = .ok stream ∧ stream.lexemes.map Lexeme.token = ts ∧
    Fragment.parse text = .ok f

theorem foreseen_readStmts (ls : List Lexeme) :
    Foreseen [.stmts false] false ls (fun _ _ => True) (readStmts (depthFor ls) false [] ls) :=
  (foresees _).stmts false [] ls false (by rw [depthFor]; omega)

/-- Where all lexemes are read, the machine comes to the end of its goals. -/
theorem moves_of_readStmts {ls r : List Lexeme} {stmts : List Stmt}
    (h : readStmts (depthFor ls) false [] ls = .ok (stmts, r)) :
    ∃ named, Moves [.stmts false] false (ls.map Lexeme.token) none [] named := by
  have hforeseen := foreseen_readStmts ls
  rw [h] at hforeseen
  obtain ⟨-, -, -, -, -, hend⟩ := (faithful _).stmts h
  obtain rfl : r = [] := by simpa using hend
  obtain ⟨taken, named, rfl, -, hmoves⟩ := hforeseen
  rw [List.append_nil]
  exact ⟨named, hmoves []⟩

/-- Where a lexeme is refused, the machine is stuck before it. -/
theorem stuck_of_readStmts {ls : List Lexeme} {e : Refusal}
    (h : readStmts (depthFor ls) false [] ls = .error e) :
    ∃ taken r gs named, ls = taken ++ r ∧ e.At r ∧ Stuck gs named (aheadOf r) ∧
      Moves [.stmts false] false (taken.map Lexeme.token) (aheadOf r) gs named := by
  have hforeseen := foreseen_readStmts ls
  rw [h] at hforeseen
  obtain ⟨taken, r, gs, named, hls, hat, hstuck, hmoves⟩ := hforeseen
  have hmoves := hmoves []
  rw [List.append_nil, List.append_nil] at hmoves
  exact ⟨taken, r, gs, named, hls, hat, hstuck, hmoves⟩

theorem parse_eq {text : String} {stream : TokenStream} (hlex : lex text = .ok stream) :
    Fragment.parse text =
      ((readStmts (depthFor stream.lexemes) false [] stream.lexemes).map Prod.fst).mapError
        (Refusal.toSyntaxError stream.stop) := by
  rw [Fragment.parse, parseWith, hlex]
  rfl

/-- On the tokens of a fragment, the machine comes to the end of its goals. -/
theorem Accepted.moves {ts : List Token} (h : Accepted ts) :
    ∃ named, Moves [.stmts false] false ts none [] named := by
  obtain ⟨text, stream, f, hlex, rfl, hparse⟩ := h
  rw [parse_eq hlex] at hparse
  cases hs : readStmts (depthFor stream.lexemes) false [] stream.lexemes with
  | error e =>
    rw [hs] at hparse
    cases hparse
  | ok x => exact moves_of_readStmts hs

/-- Tokens on which the machine comes to the end of its goals are those of a fragment. -/
theorem accepted_of_moves {ts : List Token} {named : Bool} (hts : Lexable ts)
    (h : Moves [.stmts false] false ts none [] named) : Accepted ts := by
  obtain ⟨stream, hstream, htokens⟩ := lexFrom_spell ts hts [] .start
  have hlex : lex (String.ofList (spell ts)) = .ok stream := by
    rwa [lex, String.toList_ofList]
  cases hs : readStmts (depthFor stream.lexemes) false [] stream.lexemes with
  | ok x =>
    refine ⟨_, stream, x.1, hlex, htokens, ?_⟩
    rw [parse_eq hlex, hs]
    rfl
  | error e =>
    obtain ⟨taken, r, gs, named', hls, -, hstuck, hmoves⟩ := stuck_of_readStmts hs
    obtain rfl : ts = taken.map Lexeme.token ++ r.map Lexeme.token := by
      rw [← List.map_append, ← hls]
      exact htokens.symm
    exact absurd h (hmoves.not_done hstuck List.head?_map)

/-! ## Places -/

theorem Spells.ne_nil {text : List Char} {t : Token} (h : Spells text t) : text ≠ [] := by
  cases h with
  | integer | text => exact List.cons_ne_nil _ _
  | ident h =>
    rintro hname
    rw [isName, hname] at h
    cases h
  | keyword k => cases k <;> decide
  | sign g => cases g <;> decide

theorem MadeOf.places_after {p q : Position} {s : List Char} {ls : List Lexeme}
    (h : MadeOf p s ls q) : ∀ p' ∈ ls.map Lexeme.pos ++ [q], ∃ text, p' = p.after text := by
  induction h with
  | stop =>
    intro p' hp'
    exact ⟨_, List.mem_singleton.1 hp'⟩
  | @token p q gap text rest t ls _ _ _ _ _ ih =>
    intro p' hp'
    rcases List.mem_cons.1 hp' with rfl | hp'
    · exact ⟨gap, rfl⟩
    · obtain ⟨more, rfl⟩ := ih p' hp'
      exact ⟨gap ++ (text ++ more), by simp⟩

/-- The tokens of a text and its end stand one after the other. -/
theorem MadeOf.places_inOrder {p q : Position} {s : List Char} {ls : List Lexeme}
    (h : MadeOf p s ls q) : (ls.map Lexeme.pos ++ [q]).Pairwise Before := by
  induction h with
  | stop => exact List.pairwise_singleton _ _
  | @token p q gap text rest t ls _ _ ht _ h ih =>
    refine List.Pairwise.cons (fun p' hp' => ?_) ih
    obtain ⟨more, rfl⟩ := h.places_after p' hp'
    rw [← Position.after_append]
    exact before_after (List.append_ne_nil_of_left_ne_nil ht.ne_nil more) _

/-- The tokens of a text before the place `p`, and the rest of its tokens. -/
structure TokenStream.CutAt (stream : TokenStream) (p : Position) (before rest : List Lexeme) :
    Prop where
  lexemes_eq : stream.lexemes = before ++ rest
  place_eq : (rest.head?.map Lexeme.pos).getD stream.stop = p

namespace TokenStream.CutAt

variable {stream : TokenStream} {p : Position} {before rest before' rest' : List Lexeme}

theorem places_eq (h : stream.CutAt p before rest) :
    ∃ later, stream.lexemes.map Lexeme.pos ++ [stream.stop] =
      before.map Lexeme.pos ++ p :: later := by
  obtain ⟨hlexemes, rfl⟩ := h
  rw [hlexemes, List.map_append, List.append_assoc]
  cases rest with
  | nil => exact ⟨[], rfl⟩
  | cons l rest => exact ⟨_, rfl⟩

/-- A text is cut at a place in one way only. -/
theorem unique {source : String} (hlex : lex source = .ok stream)
    (h : stream.CutAt p before rest) (h' : stream.CutAt p before' rest') :
    before = before' ∧ rest = rest' := by
  have horder := (lex_eq_ok_iff.1 hlex).places_inOrder
  obtain ⟨later, hplaces⟩ := h.places_eq
  obtain ⟨later', hplaces'⟩ := h'.places_eq
  have hirrefl : ∀ q, ¬Before q q := fun q hq => hq.asymm hq
  rw [hplaces, List.pairwise_append, List.pairwise_cons] at horder
  obtain ⟨-, ⟨hlater, -⟩, hbefore⟩ := horder
  have hnot : p ∉ before.map Lexeme.pos := fun hp => hirrefl p (hbefore p hp p List.mem_cons_self)
  have hnot' : p ∉ later := fun hp => hirrefl p (hlater p hp)
  obtain ⟨hmap, -, -⟩ :=
    (List.append_cons_inj_of_notMem hnot hnot').1 (hplaces.symm.trans hplaces')
  have hlength : before.length = before'.length := by
    simpa using congrArg List.length hmap
  exact List.append_inj (h.lexemes_eq.symm.trans h'.lexemes_eq) hlength

end TokenStream.CutAt

/-! ## Errors -/

/-- A refusal is reported at the place of what is ahead. -/
theorem Refusal.At.place_eq {e : Refusal} {r : List Lexeme} {stop : Position} (h : e.At r)
    (he : (e.toSyntaxError stop).fault ≠ .invalidTarget) :
    (r.head?.map Lexeme.pos).getD stop = (e.toSyntaxError stop).pos := by
  cases e with
  | expected what found =>
    obtain rfl : found = r.head? := h
    rfl
  | chainedComparison found =>
    have hfound : r.head? = some found := h
    rw [hfound]
    rfl
  | invalidTarget target => exact absurd rfl he

theorem Goal.lexable_completion (g : Goal) : Lexable g.completion := by
  cases g with
  | sign | expr | operand | stmt | params | moreParams | args | moreArgs => exact .cons rfl .nil
  | ident => exact .cons (by decide) .nil
  | block | branch => exact .cons rfl (.cons rfl .nil)
  | _ => exact .nil

/-- What completes a stack can stand in a text. -/
theorem lexable_completion (gs : List Goal) : Lexable (completion gs) := by
  intro t ht
  obtain ⟨g, -, hg⟩ := List.mem_flatMap.1 ht
  exact g.lexable_completion t hg

/-- The tokens before an error begin a fragment, and no fragment begins with them and the token at
which the error is reported; a target that is no name is reported at its own place. -/
theorem error_at_earliest_token {source : String} {stream : TokenStream} {e : SyntaxError}
    (hlex : lex source = .ok stream) (hparse : Fragment.parse source = .error e)
    (hfault : e.fault ≠ .invalidTarget) :
    (∃ before rest, stream.CutAt e.pos before rest) ∧
      ∀ before rest, stream.CutAt e.pos before rest →
        (∃ more, Accepted (before.map Lexeme.token ++ more)) ∧
          ∀ more, more.head? = rest.head?.map Lexeme.token →
            ¬Accepted (before.map Lexeme.token ++ more) := by
  rw [parse_eq hlex] at hparse
  cases hs : readStmts (depthFor stream.lexemes) false [] stream.lexemes with
  | ok x =>
    rw [hs] at hparse
    cases hparse
  | error refusal =>
    rw [hs] at hparse
    cases hparse
    obtain ⟨taken, r, gs, named, hls, hat, hstuck, hmoves⟩ := stuck_of_readStmts hs
    have hcut : stream.CutAt (refusal.toSyntaxError stream.stop).pos taken r :=
      ⟨hls, hat.place_eq hfault⟩
    refine ⟨⟨taken, r, hcut⟩, fun before rest hcut' => ?_⟩
    obtain ⟨rfl, rfl⟩ := hcut.unique hlex hcut'
    constructor
    · have hlexable : Lexable (taken.map Lexeme.token) := by
        have hall := (lex_eq_ok_iff.1 hlex).lexable
        rw [hls, List.map_append] at hall
        exact (List.forall_mem_append.1 hall).1
      obtain ⟨gs₁, named₁, hcompletable, hreach⟩ := hmoves.completes ⟨rfl, trivial⟩
      obtain ⟨named₂, hdone⟩ := hcompletable.moves named₁
      exact ⟨completion gs₁, accepted_of_moves (hlexable.append (lexable_completion gs₁))
        ((hreach _).trans hdone)⟩
    · intro more hmore haccepted
      obtain ⟨named', hdone⟩ := haccepted.moves
      exact hmoves.not_done hstuck hmore hdone

/-- The tokens of `if f(a < b`. -/
def openCall : List Token :=
  [.keyword .kwIf, .ident "f", .sign .lparen, .ident "a", .sign .lt, .ident "b"]

/-- A comparison that is chained to another in an argument. -/
theorem chained_error_at_earliest_token :
    Fragment.parse "if f(a < b < c) { }" = .error ⟨.chainedComparison, ⟨1, 12⟩⟩ ∧
      (∃ more, Accepted (openCall ++ more)) ∧
      ∀ more, ¬Accepted (openCall ++ .sign .lt :: more) := by
  have hlex : lex "if f(a < b < c) { }" =
      .ok ⟨[⟨.keyword .kwIf, ⟨1, 1⟩⟩, ⟨.ident "f", ⟨1, 4⟩⟩, ⟨.sign .lparen, ⟨1, 5⟩⟩,
        ⟨.ident "a", ⟨1, 6⟩⟩, ⟨.sign .lt, ⟨1, 8⟩⟩, ⟨.ident "b", ⟨1, 10⟩⟩, ⟨.sign .lt, ⟨1, 12⟩⟩,
        ⟨.ident "c", ⟨1, 14⟩⟩, ⟨.sign .rparen, ⟨1, 15⟩⟩, ⟨.sign .lbrace, ⟨1, 17⟩⟩,
        ⟨.sign .rbrace, ⟨1, 19⟩⟩], ⟨1, 20⟩⟩ := by
    cbv
  have hparse : Fragment.parse "if f(a < b < c) { }" = .error ⟨.chainedComparison, ⟨1, 12⟩⟩ := by
    cbv
  obtain ⟨-, hcuts⟩ := error_at_earliest_token hlex hparse (by decide)
  obtain ⟨hbegins, hnone⟩ :=
    hcuts [_, _, _, _, _, _] (⟨.sign .lt, ⟨1, 12⟩⟩ :: _) ⟨rfl, rfl⟩
  exact ⟨hparse, hbegins, fun more => hnone (.sign .lt :: more) rfl⟩

end ScriptMachine.Source
