import CommandLanguage.Proofs.Statement.Reading

/-!
# Reading on demand

A reader need not know all tokens of a source. It has one token at hand and asks the scanner for the
next one when it takes that token, so an error can only come from tokens that were asked for. Each
step of such a reader follows the step on lists of tokens: it takes the same tokens, neither the end
of the input nor a fault among them, and halts with the same error at the token at hand.
-/

set_option autoImplicit false

namespace CommandLanguage

/-- The tokens that were taken, the token at hand and the place behind it. -/
structure Reader where
  taken : List Token
  token : Token
  behind : Cursor

namespace Reader

def start (source : Text) : Reader :=
  ⟨[], (Cursor.start source).next.1, (Cursor.start source).next.2⟩

/-- Takes the token at hand and asks for the next one. -/
def advance (r : Reader) : Reader := ⟨r.taken ++ [r.token], r.behind.next.1, r.behind.next.2⟩

/-- The tokens that the scanner was asked for. -/
def seen (r : Reader) : List Token := r.taken ++ [r.token]

/-- The tokens from the one at hand on, up to the end of the input or the first fault. -/
def ahead (r : Reader) : List Token :=
  if r.token.kind.isLast then [r.token] else r.token :: r.behind.tokens

/-- One reader becomes another by taking some tokens, none of which is the last one. -/
structure Takes (r : Reader) (own : List Token) (after : Reader) : Prop where
  taken : after.taken = r.taken ++ own
  ahead : r.ahead = own ++ after.ahead
  more : ∀ token ∈ own, token.kind.isLast = false

variable {r r' r'' : Reader} {own own' : List Token}

theorem ahead_start (source : Text) : (start source).ahead = scan source := by
  rw [scan, Cursor.tokens, ahead, start]

theorem exists_ahead (r : Reader) : ∃ rest, r.ahead = r.token :: rest := by
  unfold ahead
  split
  · exact ⟨[], rfl⟩
  · exact ⟨_, rfl⟩

theorem ahead_advance (more : r.token.kind.isLast = false) :
    r.ahead = r.token :: r.advance.ahead := by
  rw [ahead, more, Cursor.tokens]
  rfl

theorem takes_nothing (r : Reader) : r.Takes [] r where
  taken := (List.append_nil _).symm
  ahead := rfl
  more := by simp

theorem Takes.cons (more : r.token.kind.isLast = false) (h : r.advance.Takes own r') :
    r.Takes (r.token :: own) r' where
  taken := by rw [h.taken, advance, List.append_assoc, List.singleton_append]
  ahead := by rw [ahead_advance more, h.ahead, List.cons_append]
  more := List.forall_mem_cons.mpr ⟨more, h.more⟩

theorem Takes.append (h : r.Takes own r') (h' : r'.Takes own' r'') : r.Takes (own ++ own') r'' where
  taken := by rw [h'.taken, h.taken, List.append_assoc]
  ahead := by rw [h.ahead, h'.ahead, List.append_assoc]
  more := List.forall_mem_append.mpr ⟨h.more, h'.more⟩

/-- The token at hand is the first one of those that are taken or, if none is, at hand afterwards. -/
theorem Takes.exists_front (h : r.Takes own r') (rest : List Token) :
    ∃ others, own ++ r'.token :: rest = r.token :: others := by
  obtain ⟨before, hbefore⟩ := r.exists_ahead
  obtain ⟨behind, hbehind⟩ := r'.exists_ahead
  have hahead := h.ahead
  rw [hbefore, hbehind] at hahead
  cases own with
  | nil => exact ⟨rest, by rw [(List.cons.inj hahead).1, List.nil_append]⟩
  | cons token own =>
    exact ⟨own ++ r'.token :: rest, by rw [(List.cons.inj hahead).1, List.cons_append]⟩

end Reader

/-- The error was found at the token: as a fault of the source if the token is one, and as a fault
of the grammar otherwise. -/
inductive CompileError.IsAt : CompileError → Token → Prop where
  | lexical (cause : LexicalFault) (line : Int) :
      IsAt ⟨.lexical cause, some line⟩ ⟨.fault cause, line⟩
  | grammatical {kind : TokenKind} (fault : GrammarFault) (line : Int)
      (proper : ∀ cause, kind ≠ .fault cause) : IsAt ⟨.grammatical fault, some line⟩ ⟨kind, line⟩

theorem CompileError.isAt_atToken (fault : TokenKind → GrammarFault) (token : Token)
    (rest : List Token) : (atToken fault (token :: rest)).IsAt token := by
  obtain ⟨kind, line⟩ := token
  cases kind with
  | fault cause => exact .lexical cause line
  | _ => exact .grammatical _ line (by simp)

theorem CompileError.atToken_cons (fault : TokenKind → GrammarFault) (token : Token)
    (rest : List Token) :
    atToken fault (token :: rest) = atToken (fun _ => fault token.kind) [token] := by
  obtain ⟨kind, line⟩ := token
  cases kind <;> rfl

/-- What accepts neither the end of the input nor a fault accepts no last token. -/
theorem TokenKind.isLast_eq_false {α : Type} {accept : TokenKind → Option α}
    (ended : accept .endOfInput = none) (refused : ∀ cause, accept (.fault cause) = none)
    {kind : TokenKind} {a : α} (h : accept kind = some a) : kind.isLast = false := by
  cases kind with
  | endOfInput => rw [ended] at h; cases h
  | fault cause => rw [refused] at h; cases h
  | _ => rfl

/-- A computation that reads tokens on demand; an error leaves the reader where it halted. -/
def OnDemand (α : Type) : Type := Reader → Except CompileError α × Reader

namespace OnDemand

instance : Monad OnDemand where
  pure a := fun r => (.ok a, r)
  bind step next := fun r =>
    match step r with
    | (.ok a, r) => next a r
    | (.error e, r) => (.error e, r)

variable {α β : Type}

/-- The token at hand. -/
def token : OnDemand Token := fun r => (.ok r.token, r)

def advance : OnDemand Unit := fun r => (.ok (), r.advance)

def halt (e : CompileError) : OnDemand α := fun r => (.error e, r)

/-- Halts if the token at hand is a fault. -/
def check : OnDemand Unit := do
  let found ← token
  match found.kind with
  | .fault cause => halt ⟨.lexical cause, some found.line⟩
  | _ => pure ()

/-- Halts at the token at hand, which the grammar does not allow there. -/
def fail (fault : GrammarFault) : OnDemand α := do
  check
  let found ← token
  halt ⟨.grammatical fault, some found.line⟩

/-- Takes the token at hand, or halts at it. -/
def take (judge : Token → Except GrammarFault α) : OnDemand α := do
  let found ← token
  match judge found with
  | .ok a => do
    advance
    pure a
  | .error fault => fail fault

/-- Takes the token at hand, if it is accepted. -/
def optional (accept : Token → Option α) : OnDemand (Option α) := do
  let found ← token
  match accept found with
  | some a => do
    advance
    pure (some a)
  | none => pure none

/-- Accepts the tokens of a kind and expects the operand in place of others. -/
def wanted (accept : TokenKind → Option α) (operand : Operand) (found : Token) :
    Except GrammarFault α :=
  match accept found.kind with
  | some a => .ok a
  | none => .error (.expectedOperand operand found.kind)

/-- Takes the token at hand, which has to be of a kind. -/
def expect (accept : TokenKind → Option α) (operand : Operand) : OnDemand α := do
  check
  take (wanted accept operand)

theorem bind_apply (step : OnDemand α) (next : α → OnDemand β) (r : Reader) :
    (step >>= next) r =
      match step r with
      | (.ok a, r) => next a r
      | (.error e, r) => (.error e, r) := rfl

theorem token_apply (r : Reader) : token r = (.ok r.token, r) := rfl

theorem fail_apply (fault : GrammarFault) (r : Reader) :
    (fail fault : OnDemand α) r = (.error (.atToken (fun _ => fault) [r.token]), r) := by
  obtain ⟨taken, ⟨kind, line⟩, behind⟩ := r
  cases kind <;> rfl

theorem take_apply (judge : Token → Except GrammarFault α) (r : Reader) :
    take judge r =
      match judge r.token with
      | .ok a => (.ok a, r.advance)
      | .error fault => (.error (.atToken (fun _ => fault) [r.token]), r) := by
  simp only [take, bind_apply, token_apply]
  cases judge r.token with
  | ok a => rfl
  | error fault => exact fail_apply fault r

theorem optional_apply (accept : Token → Option α) (r : Reader) :
    optional accept r =
      match accept r.token with
      | some a => (.ok (some a), r.advance)
      | none => (.ok none, r) := by
  simp only [optional, bind_apply, token_apply]
  cases accept r.token <;> rfl

/-- A fault that would be refused anyway may be checked for before. -/
theorem expect_eq_take {accept : TokenKind → Option α} (refused : ∀ cause, accept (.fault cause) = none)
    (operand : Operand) : expect accept operand = take (wanted accept operand) := by
  funext r
  obtain ⟨taken, ⟨kind, line⟩, behind⟩ := r
  cases kind with
  | fault cause =>
    rw [take_apply, wanted, refused]
    rfl
  | _ => rfl

/-- The computation follows a reader of lists from here: with the same result it takes the tokens
that the other one takes from a list, and an error is found at the token at hand. -/
inductive Follows (f : OnDemand α) (g : List Token → Except CompileError (α × List Token))
    (r : Reader) : Prop where
  | ok {own : List Token} {a : α} {after : Reader} (run : f r = (.ok a, after))
      (takes : r.Takes own after)
      (same : ∀ rest, g (own ++ after.token :: rest) = .ok (a, after.token :: rest)) : Follows f g r
  | error {own : List Token} {e : CompileError} {after : Reader} (run : f r = (.error e, after))
      (takes : r.Takes own after) (found : e.IsAt after.token)
      (same : ∀ rest, g (own ++ after.token :: rest) = .error e) : Follows f g r

/-- The computation follows the reader of lists from everywhere. -/
def Drives (f : OnDemand α) (g : List Token → Except CompileError (α × List Token)) : Prop :=
  ∀ r, Follows f g r

section Steps
variable {f : OnDemand α} {g : List Token → Except CompileError (α × List Token)}

theorem drives_pure (a : α) : Drives (pure a) fun tokens => .ok (a, tokens) :=
  fun r => .ok rfl r.takes_nothing fun _ => rfl

theorem Drives.bind {next : α → OnDemand β}
    {others : α → List Token → Except CompileError (β × List Token)} (first : Drives f g)
    (second : ∀ a, Drives (next a) (others a)) :
    Drives (f >>= next) fun tokens => g tokens >>= fun read => others read.1 read.2 := by
  intro r
  cases first r with
  | error run takes found same =>
    refine .error (by rw [bind_apply, run]) takes found ?_
    intro rest
    rw [same]
    rfl
  | @ok own a middle run takes same =>
    have run_eq : (f >>= next) r = next a middle := by rw [bind_apply, run]
    -- The list that the second part sees begins with the token at hand.
    have through {own' : List Token} {after : Reader} (takes' : middle.Takes own' after)
        (rest : List Token) : g (own ++ own' ++ after.token :: rest) =
          .ok (a, own' ++ after.token :: rest) := by
      obtain ⟨behind, hbehind⟩ := takes'.exists_front rest
      rw [List.append_assoc, hbehind, same]
    cases second a middle with
    | ok run' takes' same' =>
      refine .ok (run_eq.trans run') (takes.append takes') ?_
      intro rest
      rw [through takes']
      exact same' rest
    | error run' takes' found same' =>
      refine .error (run_eq.trans run') (takes.append takes') found ?_
      intro rest
      rw [through takes']
      exact same' rest

theorem drives_take {judge : Token → Except GrammarFault α}
    (more : ∀ token a, judge token = .ok a → token.kind.isLast = false)
    (same : ∀ token rest, g (token :: rest) =
      match judge token with
      | .ok a => .ok (a, rest)
      | .error fault => .error (.atToken (fun _ => fault) [token])) : Drives (take judge) g := by
  intro r
  have run := take_apply judge r
  cases hj : judge r.token with
  | ok a =>
    rw [hj] at run
    refine .ok run (r.advance.takes_nothing.cons (more _ a hj)) ?_
    intro rest
    rw [List.singleton_append, same, hj]
  | error fault =>
    rw [hj] at run
    refine .error run r.takes_nothing (CompileError.isAt_atToken _ _ _) ?_
    intro rest
    rw [List.nil_append, same, hj]

theorem drives_expect {accept : TokenKind → Option α} (ended : accept .endOfInput = none)
    (refused : ∀ cause, accept (.fault cause) = none) (operand : Operand) :
    Drives (expect accept operand) (Statement.expect accept operand) := by
  rw [expect_eq_take refused]
  apply drives_take
  · intro token a h
    unfold wanted at h
    split at h
    · next ha => exact TokenKind.isLast_eq_false ended refused ha
    · cases h
  · intro token rest
    rw [Statement.expect, wanted]
    cases accept token.kind with
    | some a => rfl
    | none => rw [CompileError.atToken_cons]

theorem drives_optional {accept : Token → Option α} {read : List Token → Option α × List Token}
    (more : ∀ token a, accept token = some a → token.kind.isLast = false)
    (same : ∀ token rest, read (token :: rest) =
      match accept token with
      | some a => (some a, rest)
      | none => (none, token :: rest)) : Drives (optional accept) fun tokens => .ok (read tokens) := by
  intro r
  have run := optional_apply accept r
  cases ha : accept r.token with
  | some a =>
    rw [ha] at run
    refine .ok run (r.advance.takes_nothing.cons (more _ a ha)) ?_
    intro rest
    rw [List.singleton_append, same, ha]
  | none =>
    rw [ha] at run
    refine .ok run r.takes_nothing ?_
    intro rest
    rw [List.nil_append, same, ha]

end Steps

end OnDemand

end CommandLanguage
