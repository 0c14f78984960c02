import LispMachine.Proofs.Balance.Yields
import LispMachine.Proofs.Listener.Cuts
import LispMachine.Reader.Basic

/-!
# Reading up to a cut

* `Reader.openLists`, `Reader.Wants` -- how many lists the nests are, and whether a value must follow;
* `Yields.readFrom_passes` -- **a value that has been read is made of whole tokens**, and closes the
  lists that were open;
* `Reader.readFrom_append`, `Reader.read_append` -- **what is read of a text that may be cut off does
  not depend on what follows it**.
-/

namespace LispMachine

variable {src rest after : List Char} {token : Token} {nests : List Nest} {c : Context}

namespace Reader

/-! ## 1. Open lists -/

/-- The number of lists that a value is being read inside of. -/
def openLists : List Nest → Nat
  | [] => 0
  | .quotation :: outer => openLists outer
  | .elements _ _ :: outer => openLists outer + 1
  | .dotted _ _ :: outer => openLists outer + 1
  | .closing _ :: outer => openLists outer + 1

/-- A value must follow, since no list is open that could be closed. -/
def Wants (nests : List Nest) : Prop := nests = [] ∨ ∃ outer, nests = .quotation :: outer

/-- Otherwise a list is open. -/
theorem openLists_pos (h : ¬ Wants nests) : 0 < openLists nests := by
  match nests with
  | [] => exact absurd (.inl rfl) h
  | .quotation :: outer => exact absurd (.inr ⟨outer, rfl⟩) h
  | .elements _ _ :: outer => exact Nat.succ_pos _
  | .dotted _ _ :: outer => exact Nat.succ_pos _
  | .closing _ :: outer => exact Nat.succ_pos _

/-- What a token does agrees with its count of open lists. An error that leaves the token is one
    inside of a list. -/
def Effect.Counts (nests : List Nest) (token : Token) : Effect → Prop
  | .value _ nests' => token ≠ .unclosedText ∧ openLists nests' = token.listsAfter (openLists nests)
  | .more nests' => token ≠ .unclosedText ∧ openLists nests' = token.listsAfter (openLists nests) ∧
      (Wants nests' → token = .mark)
  | .error _ used => nests = [] → used = true

end Reader

open Reader

namespace Yields

theorem meet_counts (nests : List Nest) (token : Token) :
    Yields (Reader.meet nests token) c fun e _ => e.Counts nests token := by
  cases token with
  | opening =>
    refine .ite (fun _ => .pure fun _ => rfl) fun _ => ?_
    refine .bind (P := fun _ _ => True) (fun _ _ _ => trivial) fun base _ _ => .pure ?_
    exact ⟨nofun, rfl, by rintro (h | ⟨_, h⟩) <;> cases h⟩
  | mark => exact .ite (fun _ => .pure fun _ => rfl) fun _ => .pure ⟨nofun, rfl, fun _ => rfl⟩
  | closing =>
    match nests with
    | .elements base last :: outer =>
      exact .bind (P := fun _ _ => True) (fun _ _ _ => trivial) fun v _ _ => .pure ⟨nofun, rfl⟩
    | [] => exact .pure fun _ => rfl
    | .quotation :: _ => exact .pure fun _ => rfl
    | .dotted _ _ :: _ => exact .pure fun _ => rfl
    | .closing _ :: _ => exact .pure fun _ => rfl
  | text s =>
    exact .bind (P := fun _ _ => True) (fun _ _ _ => trivial) fun v _ _ => .pure ⟨nofun, rfl⟩
  | unclosedText => exact .pure fun _ => rfl
  | atom name =>
    have hatom : Yields (do return Reader.Effect.value (← Reader.atomValue name) nests) c
        fun e _ => e.Counts nests (.atom name) :=
      .bind (P := fun _ _ => True) (fun _ _ _ => trivial) fun v _ _ => .pure ⟨nofun, rfl⟩
    match nests, hatom with
    | .elements base last :: outer, hatom =>
      refine .ite (fun _ => .ite (fun _ => .pure nofun) fun _ => .pure ⟨nofun, rfl, ?_⟩)
        fun _ => hatom
      rintro (h | ⟨_, h⟩) <;> cases h
    | [], hatom => exact hatom
    | .quotation :: _, hatom => exact hatom
    | .dotted _ _ :: _, hatom => exact hatom
    | .closing _ :: _, hatom => exact hatom

theorem effect_counts (nests : List Nest) (token : Token) :
    Yields (Reader.effect nests token) c fun e _ => e.Counts nests token := by
  match nests with
  | .closing base :: outer =>
    cases token with
    | closing =>
      exact .bind (P := fun _ _ => True) (fun _ _ _ => trivial) fun v _ _ => .pure ⟨nofun, rfl⟩
    | opening => exact .pure nofun
    | mark => exact .pure nofun
    | text s => exact .pure nofun
    | unclosedText => exact .pure nofun
    | atom name => exact .pure nofun
  | [] => exact meet_counts [] token
  | .quotation :: outer => exact meet_counts (.quotation :: outer) token
  | .elements base last :: outer => exact meet_counts (.elements base last :: outer) token
  | .dotted base last :: outer => exact meet_counts (.dotted base last :: outer) token

/-- A value closes no list, and the quotations around it end with it. -/
theorem deliver_counts (v : Value) (nests : List Nest) :
    Yields (Reader.deliver v nests) c fun r _ =>
      openLists r.2 = openLists nests ∧ (r.2 ≠ [] → ¬ Wants r.2) := by
  induction nests generalizing v c with
  | nil => exact .pure ⟨rfl, fun h => absurd rfl h⟩
  | cons nest outer ih =>
    cases nest with
    | quotation => exact .bind (P := fun _ _ => True) (fun _ _ _ => trivial) fun v _ _ => ih v
    | elements base last =>
      refine .bind (P := fun _ _ => True) (fun _ _ _ => trivial) fun cell _ _ => .pure ⟨rfl, fun _ => ?_⟩
      rintro (h | ⟨_, h⟩) <;> cases h
    | dotted base last =>
      refine .bind (P := fun _ _ => True) (fun _ _ _ => trivial) fun cell _ _ => .pure ⟨rfl, fun _ => ?_⟩
      rintro (h | ⟨_, h⟩) <;> cases h
    | closing base =>
      refine .pure ⟨rfl, fun _ => ?_⟩
      rintro (h | ⟨_, h⟩) <;> cases h

/-! ## 2. Whole tokens -/

/-- **A value is made of whole tokens**, and the lists that were open are closed behind it. -/
theorem readFrom_passes (nests : List Nest) (src : List Char) :
    Yields (Reader.readFrom nests src) c fun r _ =>
      ∀ v, r.1 = .ok v → Passes (openLists nests) src 0 r.2 := by
  induction hlen : src.length using Nat.strongRecOn generalizing nests src c with
  | ind len ih =>
    rw [Reader.readFrom]
    split
    · refine .pure fun v hv => ?_
      cases hv
    · rename_i token rest hnext
      have hlt : rest.length < len := hlen ▸ Token.length_lt_of_next? hnext
      refine (effect_counts nests token).bind fun e c₁ he => ?_
      cases e with
      | error e used =>
        refine .pure fun v hv => ?_
        cases hv
      | more nests₁ =>
        obtain ⟨htoken, hcount, _⟩ := he
        refine (ih _ hlt nests₁ rest rfl).weaken fun r _ hr v hv => ?_
        exact (Passes.of_next? hnext htoken).trans (hcount ▸ hr v hv)
      | value v nests₁ =>
        obtain ⟨htoken, hcount⟩ := he
        have htoken := Passes.of_next? (n := openLists nests) hnext htoken
        refine (deliver_counts v nests₁).bind fun r c₂ hr => ?_
        obtain ⟨v₂, nests₂⟩ := r
        rw [hcount] at hr
        cases nests₂ with
        | nil =>
          refine .pure fun w _ => ?_
          have hzero : token.listsAfter (openLists nests) = 0 := hr.1.symm
          exact hzero ▸ htoken
        | cons nest nests₂ =>
          refine (ih _ hlt _ rest rfl).weaken fun r _ hrest v hv => htoken.trans ?_
          have hsame : openLists (nest :: nests₂) = token.listsAfter (openLists nests) := hr.1
          exact hsame ▸ hrest v hv

end Yields

namespace Reader

/-! ## 3. What follows -/

section FollowedBy

variable {α β : Type}

/-- Something more is left of the text. -/
def followedBy (after : List Char) (x : Run (α × List Char)) : Run (α × List Char) := do
  let (a, rest) ← x
  pure (a, rest ++ after)

theorem followedBy_bind (x : Run β) (f : β → Run (α × List Char)) :
    followedBy after (x >>= f) = x >>= fun b => followedBy after (f b) := bind_assoc x f _

theorem followedBy_ok {x : Run (α × List Char)} {p : α × List Char} {c' : Context}
    (h : x c = .ok p c') : followedBy after x c = .ok (p.1, p.2 ++ after) c' := run_bind h

theorem followedBy_error {x : Run (α × List Char)} {e : Fault} {c' : Context}
    (h : x c = .error e c') : followedBy after x c = .error e c' := run_bind_error h

/-- What has been read has been read of the text alone. -/
theorem of_followedBy {x : Run (α × List Char)} {a : α} {left : List Char} {c' : Context}
    (h : followedBy after x c = .ok (a, left) c') :
    ∃ rest, x c = .ok (a, rest) c' ∧ left = rest ++ after := by
  obtain ⟨⟨_, rest⟩, _, hx, hpure⟩ := bind_eq_ok.mp h
  cases hpure
  exact ⟨rest, hx, rfl⟩

end FollowedBy

/-- What is done after a token. -/
def goOn (src rest : List Char) : Effect → Run (Except ReadError Value × List Char)
  | .error e used => pure (.error e, if used then rest else src)
  | .more nests => readFrom nests rest
  | .value v nests => do
    match ← deliver v nests with
    | (v, []) => pure (.ok v, rest)
    | (_, nests) => readFrom nests rest

theorem readFrom_some (hnext : Token.next? src = some (token, rest)) (nests : List Nest) :
    readFrom nests src = effect nests token >>= goOn src rest := by
  rw [readFrom]
  split
  · rename_i hnone
    rw [hnext] at hnone
    cases hnone
  · rename_i hsome
    rw [hnext] at hsome
    cases hsome
    rfl

theorem readFrom_none (hnext : Token.next? src = none) (nests : List Nest) :
    readFrom nests src = pure (.error (atEnd nests), []) := by
  rw [readFrom]
  split
  · rfl
  · rename_i hsome
    rw [hnext] at hsome
    cases hsome

/-- **Reading goes on alike, whatever follows.** -/
theorem readFrom_append (hcut : Cut (openLists nests) src)
    (hwants : Wants nests → Token.next? src ≠ none) :
    readFrom nests (src ++ after) c = followedBy after (readFrom nests src) c := by
  induction hlen : src.length using Nat.strongRecOn generalizing nests src c with
  | ind len ih =>
    cases hnext : Token.next? src with
    | none =>
      have hpos := openLists_pos fun h => hwants h hnext
      rw [hcut.eq_zero hnext] at hpos
      cases hpos
    | some p =>
      obtain ⟨token, rest⟩ := p
      have hlt : rest.length < len := hlen ▸ Token.length_lt_of_next? hnext
      rw [readFrom_some (hcut.next?_append hnext), readFrom_some hnext, followedBy_bind]
      refine run_bind_congr fun e c₁ heff => ?_
      have hcounts := Yields.effect_counts nests token e c₁ heff
      have hrest := hcut.passes (.of_next? hnext (hcut.ne_unclosedText hnext))
      cases e with
      | error e used =>
        cases used <;> rfl
      | more nests₁ =>
        obtain ⟨_, hcount, hmark⟩ := hcounts
        refine ih _ hlt (hcount ▸ hrest) (fun hwants => ?_) rfl
        obtain rfl := hmark hwants
        exact hcut.next?_ne_none hnext
      | value v nests₁ =>
        show (deliver v nests₁ >>= _) c₁ = _
        rw [goOn, followedBy_bind]
        refine run_bind_congr fun p c₂ hdeliver => ?_
        obtain ⟨hcount, hlist⟩ := Yields.deliver_counts v nests₁ p c₂ hdeliver
        obtain ⟨v₂, nests₂⟩ := p
        cases nests₂ with
        | nil => rfl
        | cons nest nests₂ =>
          refine ih _ hlt ?_ (fun hwants => absurd hwants (hlist (List.cons_ne_nil _ _))) rfl
          rw [hcount, hcounts.2]
          exact hrest

/-- What is done when reading has ended. -/
def settle (base : Nat) : Except ReadError Value × List Char →
    Run (Except ReadError (Option Value) × List Char)
  | (.ok v, rest) => pure (.ok (some v), rest)
  | (.error e, rest) => do
    Heap.popRoots base
    pure (.error e, rest)

theorem read_some (hnext : Token.next? src = some (token, rest)) :
    read src = liftM Heap.rootBase >>= fun base => readFrom [] src >>= settle base := by
  rw [read, hnext]
  rfl

theorem followedBy_settle (base : Nat) (p : Except ReadError Value × List Char) :
    followedBy after (settle base p) = settle base (p.1, p.2 ++ after) := by
  obtain ⟨r, rest⟩ := p
  cases r with
  | ok v => rfl
  | error e =>
    rw [settle, followedBy_bind]
    rfl

theorem read_none (hnext : Token.next? src = none) : read src = pure (.ok none, []) := by
  rw [read, hnext]

/-- Only at the end of a text there is nothing to be read. -/
theorem next?_eq_none_of_read {c' : Context} (h : read src c = .ok (.ok none, rest) c') :
    Token.next? src = none := by
  by_contra hnext
  obtain ⟨⟨token, left⟩, hsome⟩ := Option.ne_none_iff_exists'.mp hnext
  rw [read_some hsome] at h
  obtain ⟨base, c₁, -, h⟩ := bind_eq_ok.mp h
  obtain ⟨⟨r, _⟩, c₂, -, h⟩ := bind_eq_ok.mp h
  cases r with
  | ok v => cases h
  | error e =>
    obtain ⟨_, _, -, h⟩ := bind_eq_ok.mp h
    cases h

/-- **The next form of a text that may be cut off does not depend on what follows.** -/
theorem read_append (hcut : Cut 0 src) (hnext : Token.next? src ≠ none) :
    read (src ++ after) c = followedBy after (read src) c := by
  obtain ⟨⟨token, rest⟩, hsome⟩ := Option.ne_none_iff_exists'.mp hnext
  rw [read_some (hcut.next?_append hsome), read_some hsome, followedBy_bind]
  refine run_bind_congr fun base c₁ _ => ?_
  have hread : readFrom [] (src ++ after) c₁ = followedBy after (readFrom [] src) c₁ :=
    readFrom_append hcut fun _ => hnext
  rw [followedBy_bind]
  cases hr : readFrom [] src c₁ with
  | ok p c₂ =>
    rw [run_bind (hread.trans (followedBy_ok hr)), run_bind hr, followedBy_settle]
  | error e c₂ => rw [run_bind_error (hread.trans (followedBy_error hr)), run_bind_error hr]

/-- **The next form depends on what comes with the next token**, and not on what is before it. -/
theorem read_congr (hsame : Token.next? src = Token.next? after) : read src c = read after c := by
  cases hafter : Token.next? after with
  | none => rw [read_none (hsame.trans hafter), read_none hafter]
  | some p =>
    obtain ⟨token, rest⟩ := p
    rw [read_some (hsame.trans hafter), read_some hafter]
    refine run_bind_congr fun base c₁ _ => ?_
    have hread : readFrom [] src c₁ = readFrom [] after c₁ := by
      rw [readFrom_some (hsame.trans hafter), readFrom_some hafter]
      refine run_bind_congr fun e c₂ heff => ?_
      cases e with
      | error e used =>
        -- outside of all lists an error uses its token up
        obtain rfl : used = true := Yields.effect_counts [] token _ c₂ heff rfl
        rfl
      | more nests => rfl
      | value v nests => rfl
    exact run_bind_congr_left hread

/-- Where there is no token, the next form is that of what follows. -/
theorem read_blank_append (hlined : Lined src) (hnext : Token.next? src = none) :
    read (src ++ after) c = read after c :=
  read_congr (Token.next?_blank_append hlined hnext)

/-- A form that has been read is made of whole tokens. -/
theorem read_passes (src : List Char) :
    Yields (Reader.read src) c fun r _ => ∀ v, r.1 = .ok (some v) → Passes 0 src 0 r.2 := by
  cases hnext : Token.next? src with
  | none =>
    rw [read_none hnext]
    exact .pure nofun
  | some p =>
    rw [read_some hnext]
    refine .bind (P := fun _ _ => True) (fun _ _ _ => trivial) fun base c₁ _ => ?_
    refine (Yields.readFrom_passes [] src).bind fun p c₂ hp => ?_
    obtain ⟨r, rest⟩ := p
    cases r with
    | ok v => exact .pure fun _ _ => hp v rfl
    | error e => exact .bind (P := fun _ _ => True) (fun _ _ _ => trivial) fun _ _ _ => .pure nofun

end Reader

end LispMachine
