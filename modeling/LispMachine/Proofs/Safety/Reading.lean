import LispMachine.Proofs.Balance.Reading
import LispMachine.Proofs.Safety.Secure

/-!
# The reader is secure

An unfinished list has a slot of its own on the root stack, and its last pair is a pair:

* `Nest.Linked`, `Stacked` -- what is true of the nests that are open;
* `Secure.effect`, `Secure.deliver` -- one token, and one value;
* `Secure.read` -- **no text ends the reader in a fault but exhaustion**.
-/

namespace LispMachine

/-- The rest slot that the next element goes to belongs to a pair, if there is an element. -/
def Nest.Linked : Nest → Prop
  | .elements _ last => last = .nil ∨ last.isPair = true
  | .dotted _ last => last.isPair = true
  | .quotation | .closing _ => True

/-- **Nests are open** between the heights `m` and `n` of the root stack. -/
structure Stacked (m n : Nat) (nests : List Nest) : Prop where
  opened : Open m n nests
  linked : ∀ nest ∈ nests, nest.Linked

namespace Stacked

variable {m n slot : Nat} {last : Value} {nests : List Nest}

theorem outermost : Stacked m m [] := ⟨.outermost, nofun⟩

theorem quotation (h : Stacked m n nests) : Stacked m n (.quotation :: nests) :=
  ⟨.quotation h.opened, List.forall_mem_cons.mpr ⟨trivial, h.linked⟩⟩

theorem elements (h : Stacked m slot nests) (hlast : last = .nil ∨ last.isPair = true) :
    Stacked m (slot + 1) (.elements slot last :: nests) :=
  ⟨.elements h.opened, List.forall_mem_cons.mpr ⟨hlast, h.linked⟩⟩

theorem dotted (h : Stacked m slot nests) (hlast : last.isPair = true) :
    Stacked m (slot + 1) (.dotted slot last :: nests) :=
  ⟨.dotted h.opened, List.forall_mem_cons.mpr ⟨hlast, h.linked⟩⟩

theorem closing (h : Stacked m slot nests) : Stacked m (slot + 1) (.closing slot :: nests) :=
  ⟨.closing h.opened, List.forall_mem_cons.mpr ⟨trivial, h.linked⟩⟩

end Stacked

/-- The nests of an effect are open, or an error leaves slots above the outermost height. -/
def Reader.Effect.Stacked (m : Nat) : Reader.Effect → Nat → Prop
  | .value _ nests, n => LispMachine.Stacked m n nests
  | .more nests, n => LispMachine.Stacked m n nests
  | .error _ _, n => m ≤ n

namespace Secure

variable {ρ v last : Value} {m n slot : Nat} {nests : List Nest} {token : Token}

/-! ## 1. Steps of the reader -/

theorem quotation (v : Value) : Secure ρ n (Reader.quotation v) (Level n fun _ => True) := by
  unfold Reader.quotation
  refine rootBase (push ((cons _ _).next fun tail _ => (sym _).next fun quote _ => ?_))
  exact (cons _ _).next fun out _ => pop (Nat.le_succ n) (pure ⟨rfl, trivial⟩)

theorem atomValue (name : List Char) : Secure ρ n (Reader.atomValue name) (Level n fun _ => True) := by
  unfold Reader.atomValue
  split
  · exact pure ⟨rfl, trivial⟩
  · exact (sym _).weaken fun _ _ h => ⟨h.1, trivial⟩

/-- **An element is appended** to a list with a slot. -/
theorem append (hslot : slot < n) (hlast : last = .nil ∨ last.isPair = true) :
    Secure ρ n (Reader.append slot last v) (Level n fun cell => cell.isPair = true) := by
  unfold Reader.append
  refine (cons _ _).next fun cell hcell => ite (fun _ => ?_) fun hnil => ?_
  · exact (setRoot hslot).next fun _ _ => pure ⟨rfl, hcell⟩
  · have hpair : last.isPair = true := hlast.resolve_left fun h => hnil (by rw [h]; rfl)
    exact (setCdr hpair).next fun _ _ => pure ⟨rfl, hcell⟩

/-- A list is closed, and its slot is cut off. -/
theorem close (hslot : slot < n) : Secure ρ n (Reader.close slot) (Level slot fun _ => True) := by
  unfold Reader.close
  exact (root hslot).next fun _ _ => pop (Nat.le_of_lt hslot) (pure ⟨rfl, trivial⟩)

/-- **A finished value is handed to its nests.** -/
theorem deliver (h : Stacked m n nests) :
    Secure ρ n (Reader.deliver v nests) fun r k => Stacked m k r.2 := by
  obtain ⟨hopen, hlinked⟩ := h
  induction hopen generalizing v with
  | outermost => exact pure .outermost
  | quotation hopen ih =>
    exact (quotation v).next fun _ _ => ih (List.forall_mem_cons.mp hlinked).2
  | elements hopen =>
    obtain ⟨hlast, hlinked⟩ := List.forall_mem_cons.mp hlinked
    have houter : Stacked m _ _ := ⟨hopen, hlinked⟩
    exact (append (Nat.lt_succ_self _) hlast).next fun _ hcell => pure (houter.elements (.inr hcell))
  | dotted hopen =>
    obtain ⟨hlast, hlinked⟩ := List.forall_mem_cons.mp hlinked
    have houter : Stacked m _ _ := ⟨hopen, hlinked⟩
    exact (setCdr hlast).next fun _ _ => pure houter.closing
  | closing hopen => exact pure ⟨.closing hopen, hlinked⟩

theorem meet (h : Stacked m n nests) :
    Secure ρ n (Reader.meet nests token) (Reader.Effect.Stacked m) := by
  have hle : m ≤ n := h.opened.le
  cases token with
  | opening => exact ite (fun _ => pure hle) fun _ => push (pure (h.elements (.inl rfl)))
  | mark => exact ite (fun _ => pure hle) fun _ => pure h.quotation
  | closing =>
    obtain ⟨hopen, hlinked⟩ := h
    cases hopen with
    | elements hopen =>
      have houter : Stacked m _ _ := ⟨hopen, (List.forall_mem_cons.mp hlinked).2⟩
      refine (close (Nat.lt_succ_self _)).bind fun _ k hk => ?_
      obtain ⟨rfl, -⟩ := hk
      exact pure houter
    | outermost | quotation _ | dotted _ | closing _ => exact pure hle
  | text s => exact (str _).next fun _ _ => pure h
  | unclosedText => exact pure hle
  | atom name =>
    have hatom : Secure ρ n (do return Reader.Effect.value (← Reader.atomValue name) nests)
        (Reader.Effect.Stacked m) := (atomValue name).next fun _ _ => pure h
    obtain ⟨hopen, hlinked⟩ := h
    cases hopen with
    | @elements slot last nests hopen =>
      obtain ⟨hlast, hlinked⟩ := List.forall_mem_cons.mp hlinked
      refine ite (fun _ => ite (fun _ => pure hle) fun hnil => pure ?_) fun _ => hatom
      have hpair : last.isPair = true := hlast.resolve_left fun h => hnil (by rw [h]; rfl)
      exact Stacked.dotted ⟨hopen, hlinked⟩ hpair
    | outermost | quotation _ | dotted _ | closing _ => exact hatom

/-- **A token is met.** -/
theorem effect (h : Stacked m n nests) :
    Secure ρ n (Reader.effect nests token) (Reader.Effect.Stacked m) := by
  obtain ⟨hopen, hlinked⟩ := h
  cases hopen with
  | closing hopen =>
    have hle : m ≤ _ := (Open.closing hopen).le
    cases token with
    | closing =>
      have houter : Stacked m _ _ := ⟨hopen, (List.forall_mem_cons.mp hlinked).2⟩
      refine (close (Nat.lt_succ_self _)).bind fun _ k hk => ?_
      obtain ⟨rfl, -⟩ := hk
      exact pure houter
    | opening | mark | text s | unclosedText | atom name => exact pure hle
  | outermost => exact meet ⟨.outermost, hlinked⟩
  | quotation hopen => exact meet ⟨.quotation hopen, hlinked⟩
  | elements hopen => exact meet ⟨.elements hopen, hlinked⟩
  | dotted hopen => exact meet ⟨.dotted hopen, hlinked⟩

/-! ## 2. The loop -/

/-- **Where reading ends**, the root stack is as it was, or higher after an error. -/
theorem readFrom (h : Stacked m n nests) (src : List Char) :
    Secure ρ n (Reader.readFrom nests src) fun r k =>
      match r.1 with
      | .ok _ => k = m
      | .error _ => m ≤ k := by
  induction hlen : src.length using Nat.strongRecOn generalizing n nests src with
  | ind len ih =>
    rw [Reader.readFrom]
    split
    · exact pure h.opened.le
    · rename_i token rest hnext
      have hlt : rest.length < len := hlen ▸ Token.length_lt_of_next? hnext
      refine (effect h).bind fun e k he => ?_
      cases e with
      | error e used => exact pure he
      | more nests => exact ih _ hlt he rest rfl
      | value v nests =>
        refine (deliver he).bind fun r k hr => ?_
        obtain ⟨v, nests⟩ := r
        cases nests with
        | nil =>
          obtain ⟨⟨⟩, -⟩ := hr
          exact pure rfl
        | cons nest nests => exact ih _ hlt hr rest rfl

/-- **Reading ends in no fault but exhaustion**, whatever the text. -/
theorem read (src : List Char) : Secure ρ n (Reader.read src) (Level n fun _ => True) := by
  unfold Reader.read
  split
  · exact pure ⟨rfl, trivial⟩
  · refine rootBase ((readFrom .outermost src).bind fun r k hr => ?_)
    obtain ⟨r, rest⟩ := r
    cases r with
    | ok v =>
      obtain rfl : k = n := hr
      exact pure ⟨rfl, trivial⟩
    | error e => exact pop hr (pure ⟨rfl, trivial⟩)

end Secure

end LispMachine
