import LispMachine.Proofs.Balance.Reading
import LispMachine.Proofs.Listener.Reading

/-!
# Reading by recursive descent

The reader is a loop over the tokens that keeps the unfinished lists and quotations in front of it. Said as
functions that call each other -- one for a value, one for the elements of a list -- it counts how deep it is
inside of them, goes back up on every way out, and cuts off the root slot of a list where that list ends or
fails:

* `Cursor` -- a reader between two calls: the text that is left, and the depth;
* `Cursor.value`, `Cursor.start`, `Cursor.elements` -- the descent. A cursor goes no way but forward
  (`Cursor.Answer`);
* `Cursor.Continues` -- the loop goes on where the descent has answered, or has failed like it;
* `Cursor.read_eq` -- **the descent reads what the loop reads, leaves the same context, and is back at depth
  zero** whether it has a value or an error.
-/

namespace LispMachine

open Reader

/-- Where a reader is: what is left of the text, and how many lists and quotations it is inside of. -/
structure Cursor where
  left : List Char
  depth : Nat
  deriving DecidableEq, Repr

namespace Cursor

/-! ## 1. The descent -/

/-- What is read off a text: a value or an error, and a cursor further on in it. -/
abbrev Answer (src : List Char) := Except ReadError Value × { k : Cursor // k.left <:+ src }

variable {src rest left : List Char} {token : Token}

/-- An error, wherever the cursor is. -/
def failed (e : ReadError) (k : Cursor) (hk : k.left <:+ src) : Run (Answer src) := pure (.error e, ⟨k, hk⟩)

/-- The end of the text. -/
def atEnd (e : ReadError) (k : Cursor) : Run (Answer src) := failed e { k with left := [] } List.nil_suffix

/-- What is read off the rest of a text is read off the text. -/
def within (hrest : rest <:+ src) (x : Run (Answer rest)) : Run (Answer src) := do
  let (r, k) ← x
  pure (r, ⟨k.val, k.property.trans hrest⟩)

/-- Goes on with a value, and hands an error on. -/
def onValue (x : Run (Answer rest)) (hrest : rest <:+ src)
    (f : Value → (k : Cursor) → k.left <:+ rest → Run (Answer src)) : Run (Answer src) := do
  match ← x with
  | (.ok v, k) => f v k.val k.property
  | (.error e, k) => failed e k.val (k.property.trans hrest)

/-- Reads one level deeper, if there may be one, and comes back. -/
def nested (k : Cursor) (x : Run (Answer k.left)) : Run (Answer k.left) := do
  if k.depth ≥ maxNesting then failed .tooDeep k (List.suffix_refl _)
  else
    let (r, k') ← x
    pure (r, ⟨{ k'.val with depth := k'.val.depth - 1 }, k'.property⟩)

/-- The parenthesis behind the tail of the list in the slot `head`. -/
def ended (head : Nat) (k : Cursor) : Run (Answer k.left) :=
  match h : Token.next? k.left with
  | none => atEnd .unclosedList k
  | some (token, rest) =>
    if token = .closing then do
      pure (.ok (← Heap.root head), ⟨{ k with left := rest }, Token.suffix_of_next? h⟩)
    else failed .misplacedDot k (List.suffix_refl _)

mutual

/-- Reads a value. -/
def value (k : Cursor) : Run (Answer k.left) :=
  match h : Token.next? k.left with
  | none => atEnd .unexpectedEnd k
  | some (token, rest) => within (Token.suffix_of_next? h) (start token { k with left := rest })
termination_by (k.left.length, 0)
decreasing_by exact .left _ _ (Token.length_lt_of_next? h)

/-- Reads a value from behind its first token. -/
def start (token : Token) (k : Cursor) : Run (Answer k.left) :=
  match token with
  | .closing => failed .unexpectedClosing k (List.suffix_refl _)
  | .unclosedText => failed .unclosedText k (List.suffix_refl _)
  | .opening => nested k do
    let base ← Heap.rootBase
    let head ← Heap.pushRoot .nil
    let out ← elements head .nil { k with depth := k.depth + 1 }
    Heap.popRoots base
    pure out
  | .mark => onValue (nested k (value { k with depth := k.depth + 1 })) (List.suffix_refl _) fun v k' hk => do
    pure (.ok (← quotation v), ⟨k', hk⟩)
  | .text s => do pure (.ok (← Context.str (String.ofList s).toUTF8), ⟨k, List.suffix_refl _⟩)
  | .atom name => do pure (.ok (← atomValue name), ⟨k, List.suffix_refl _⟩)
termination_by (k.left.length, 1)
decreasing_by all_goals exact .right _ (by decide)

/-- Reads on in the list in the slot `head`, whose last pair is `tail`. -/
def elements (head : Nat) (tail : Value) (k : Cursor) : Run (Answer k.left) :=
  match h : Token.next? k.left with
  | none => atEnd .unclosedList k
  | some (token, rest) =>
    have hrest : rest <:+ k.left := Token.suffix_of_next? h
    if token = .closing then do pure (.ok (← Heap.root head), ⟨{ k with left := rest }, hrest⟩)
    else if token = .atom ['.'] then
      if tail.isNil then failed .misplacedDot k (List.suffix_refl _)
      else
        onValue (value { k with left := rest }) hrest fun last k' hk => do
          Heap.setCdr tail last
          within (hk.trans hrest) (ended head k')
    else
      onValue (start token { k with left := rest }) hrest fun v k' hk => do
        let cell ← append head tail v
        within (hk.trans hrest) (elements head cell k')
termination_by (k.left.length, 0)
decreasing_by
  all_goals have hlt := Token.length_lt_of_next? h
  · exact .left _ _ hlt
  · exact .left _ _ hlt
  · exact .left _ _ (Nat.lt_of_le_of_lt hk.length_le hlt)

end

/-- **A call of the reader**: the next value, or none at the end of the text, and the cursor behind it. -/
def read (k : Cursor) : Run (Except ReadError (Option Value) × Cursor) :=
  match Token.next? k.left with
  | none => pure (.ok none, { k with left := [] })
  | some _ => do
    let (r, k') ← value k
    pure (r.map some, k'.val)

/-! ## 2. The loop goes on where the descent has answered -/

/-- What the loop does with a finished value. -/
def handOn (nests : List Nest) (v : Value) (left : List Char) : Run (Except ReadError Value × List Char) :=
  goOn left left (.value v nests)

/-- **The loop, which has come to `loop`, goes on where the descent has answered**, with as many roots as
    there were and at the depth from before, or has failed like it, but for the slots of unfinished lists. -/
def Continues (n depth : Nat) (go : Value → List Char → Run (Except ReadError Value × List Char))
    (loop : EStateM.Result Fault Context (Except ReadError Value × List Char)) :
    EStateM.Result Fault Context (Answer src) → Prop
  | .error f c => loop = .error f c
  | .ok (.ok v, k) c => c.heap.roots.size = n ∧ k.val.depth = depth ∧ loop = go v k.val.left c
  | .ok (.error e, k) c => k.val.depth = depth ∧
      ∃ c₁, loop = .ok (.error e, k.val.left) c₁ ∧ (liftM (Heap.popRoots n) : Run Unit) c₁ = .ok () c

variable {m n d e : Nat} {go go' : Value → List Char → Run (Except ReadError Value × List Char)}
variable {loop : EStateM.Result Fault Context (Except ReadError Value × List Char)} {c c' : Context} {k : Cursor}
variable {nests outer : List Nest}

theorem popRoots_run (h : n ≤ c.heap.roots.size) : (liftM (Heap.popRoots n) : Run Unit) c =
    .ok () { c with heap := { c.heap with roots := c.heap.roots.shrink n } } := by
  show Context.onHeap (Heap.popRoots n) c = _
  rw [Context.onHeap, Heap.popRoots, if_pos h]

theorem popRoots_size (c : Context) : (liftM (Heap.popRoots c.heap.roots.size) : Run Unit) c = .ok () c := by
  have hsame : c.heap.roots.shrink c.heap.roots.size = c.heap.roots := by simp [Array.shrink_eq_take]
  rw [popRoots_run (Nat.le_refl _), hsame]

/-- Roots may be cut off one after the other. -/
theorem popRoots_succ (h : (liftM (Heap.popRoots (n + 1)) : Run Unit) c = .ok () c') :
    ∃ c₁, (liftM (Heap.popRoots n) : Run Unit) c' = .ok () c₁ ∧
      (liftM (Heap.popRoots n) : Run Unit) c = .ok () c₁ := by
  by_cases hle : n + 1 ≤ c.heap.roots.size
  · rw [popRoots_run hle] at h
    cases h
    have hcut : (c.heap.roots.shrink (n + 1)).shrink n = c.heap.roots.shrink n := by
      simp [Array.shrink_eq_take]
    refine ⟨_, popRoots_run ?_, ?_⟩
    · show n ≤ (c.heap.roots.shrink (n + 1)).size
      rw [Array.size_shrink]
      omega
    · rw [popRoots_run (by omega), ← hcut]
  · replace h : Context.onHeap (Heap.popRoots (n + 1)) c = .ok () c' := h
    rw [Context.onHeap, Heap.popRoots, if_neg hle] at h
    cases h

namespace Continues

theorem failed (e : ReadError) (hk : k.left <:+ src) :
    Continues c.heap.roots.size k.depth go (.ok (.error e, k.left) c) (failed e k hk c) :=
  ⟨rfl, c, rfl, popRoots_size c⟩

/-- The text has come to its end. -/
theorem atEnd (e : ReadError) :
    Continues c.heap.roots.size k.depth go (.ok (.error e, []) c) ((Cursor.atEnd e k : Run (Answer src)) c) :=
  .failed (k := { k with left := [] }) e List.nil_suffix

/-- After an answer. -/
theorem bind {x : Run (Answer rest)} {f : Answer rest → Run (Answer src)} (hx : Continues m e go loop (x c))
    (hok : ∀ v k c', c'.heap.roots.size = m → k.val.depth = e →
      Continues n d go' (go v k.val.left c') (f (.ok v, k) c'))
    (herror : ∀ r k c' c₁, k.val.depth = e → (liftM (Heap.popRoots m) : Run Unit) c₁ = .ok () c' →
      Continues n d go' (.ok (.error r, k.val.left) c₁) (f (.error r, k) c')) :
    Continues n d go' loop ((x >>= f) c) := by
  cases hrun : x c with
  | error fault c' =>
    rw [hrun] at hx
    rw [run_bind_error hrun]
    exact hx
  | ok p c' =>
    rw [hrun] at hx
    rw [run_bind hrun]
    obtain ⟨r | v, k⟩ := p
    · obtain ⟨hdepth, c₁, rfl, hpop⟩ := hx
      exact herror r k c' c₁ hdepth hpop
    · obtain ⟨hsize, hdepth, rfl⟩ := hx
      exact hok v k c' hsize hdepth

/-- After an action that both take, and that leaves the roots. -/
theorem after {α : Type} {y : Run α} {f : α → Run (Except ReadError Value × List Char)}
    {g : α → Run (Answer src)} (hy : Yields y c fun _ c' => c'.heap.roots.size = c.heap.roots.size)
    (h : ∀ a c', c'.heap.roots.size = c.heap.roots.size → Continues n d go (f a c') (g a c')) :
    Continues n d go ((y >>= f) c) ((y >>= g) c) := by
  cases hrun : y c with
  | error fault c' =>
    rw [run_bind_error hrun, run_bind_error hrun]
    rfl
  | ok a c' =>
    rw [run_bind hrun, run_bind hrun]
    exact h a c' (hy a c' hrun)

theorem within {x : Run (Answer rest)} (hrest : rest <:+ src) (hx : Continues n d go loop (x c)) :
    Continues n d go loop (within hrest x c) :=
  hx.bind (fun _ _ _ hsize hdepth => ⟨hsize, hdepth, rfl⟩)
    fun _ _ _ c₁ hdepth hpop => ⟨hdepth, c₁, rfl, hpop⟩

theorem onValue {x : Run (Answer rest)} {hrest : rest <:+ src}
    {f : Value → (k : Cursor) → k.left <:+ rest → Run (Answer src)} (hx : Continues n d go loop (x c))
    (hf : ∀ v k hk c', c'.heap.roots.size = n → k.depth = d →
      Continues n d go' (go v k.left c') (f v k hk c')) :
    Continues n d go' loop (onValue x hrest f c) :=
  hx.bind (fun v k c' hsize hdepth => hf v k.val k.property c' hsize hdepth)
    fun _ _ _ c₁ hdepth hpop => ⟨hdepth, c₁, rfl, hpop⟩

/-- One level deeper and back, or not at all. -/
theorem nested {x : Run (Answer k.left)}
    (hx : ¬ k.depth ≥ maxNesting → Continues c.heap.roots.size (k.depth + 1) go loop (x c)) :
    Continues c.heap.roots.size k.depth go
      (if k.depth ≥ maxNesting then .ok (.error .tooDeep, k.left) c else loop) (nested k x c) := by
  unfold Cursor.nested
  by_cases hdeep : k.depth ≥ maxNesting
  · rw [if_pos hdeep, if_pos hdeep]
    exact .failed .tooDeep (List.suffix_refl _)
  · rw [if_neg hdeep, if_neg hdeep]
    refine (hx hdeep).bind (fun v k' c' hsize hdepth => ⟨hsize, ?_, rfl⟩) fun e k' c' c₁ hdepth hpop =>
      ⟨?_, c₁, rfl, hpop⟩
    · exact congrArg (· - 1) hdepth
    · exact congrArg (· - 1) hdepth

/-- The slot of a list is cut off behind it. -/
theorem released {x : Run (Answer src)}
    (hx : Continues (n + 1) d (fun v left => do Heap.popRoots n; go v left) loop (x c)) :
    Continues n d go loop ((do let out ← x; Heap.popRoots n; pure out : Run (Answer src)) c) := by
  refine hx.bind (fun v k c' hsize hdepth => ?_) fun e k c' c₁ hdepth hpop => ?_
  · have hle : n ≤ c'.heap.roots.size := by omega
    have hrun := popRoots_run hle
    rw [run_bind hrun, run_bind hrun]
    refine ⟨?_, hdepth, rfl⟩
    rw [Array.size_shrink]
    omega
  · obtain ⟨c₂, hcut, hall⟩ := popRoots_succ hpop
    rw [run_bind hcut]
    exact ⟨hdepth, c₁, rfl, hall⟩

end Continues

/-! ## 3. The descent, case by case -/

/-- Where a value may begin with the token: it must follow, or it is one more element of a list. -/
def Begins (nests : List Nest) (token : Token) : Prop :=
  Reader.atEnd nests = .unexpectedEnd ∨
    ∃ head tail outer, nests = .elements head tail :: outer ∧ token ≠ .closing ∧ token ≠ .atom ['.']

theorem effect_of_begins (h : Begins nests token) : effect nests token = meet nests token := by
  match nests with
  | .closing base :: outer => rcases h with h | ⟨_, _, _, h, -⟩ <;> cases h
  | [] => rfl
  | .quotation :: outer => rfl
  | .elements head tail :: outer => rfl
  | .dotted head tail :: outer => rfl

theorem meet_closing (h : Begins nests .closing) :
    meet nests .closing = pure (.error .unexpectedClosing true) := by
  match nests with
  | .elements head tail :: outer =>
    rcases h with h | ⟨_, _, _, -, hne, -⟩
    · cases h
    · exact absurd rfl hne
  | [] | .quotation :: outer | .dotted head tail :: outer | .closing base :: outer => rfl

theorem meet_atom {name : List Char} (h : Begins nests (.atom name)) :
    meet nests (.atom name) = do return .value (← atomValue name) nests := by
  match nests with
  | .elements head tail :: outer =>
    rcases h with h | ⟨_, _, _, -, -, hne⟩
    · cases h
    · exact if_neg fun hname => hne (by rw [hname])
  | [] | .quotation :: outer | .dotted head tail :: outer | .closing base :: outer => rfl

/-- The loop goes on where a value has been read. -/
def AtValue (k : Cursor) : Prop := ∀ (nests : List Nest) (c : Context),
  Reader.atEnd nests = .unexpectedEnd → k.depth = nests.length →
    Continues c.heap.roots.size k.depth (handOn nests) (readFrom nests k.left c) (value k c)

/-- The same behind its first token. -/
def AtStart (token : Token) (k : Cursor) : Prop := ∀ (nests : List Nest) (src : List Char) (c : Context),
  Token.next? src = some (token, k.left) → Begins nests token → k.depth = nests.length →
    Continues c.heap.roots.size k.depth (handOn nests) (readFrom nests src c) (start token k c)

/-- The same at the end of a list, whose slot is still there. -/
def AtElements (head : Nat) (tail : Value) (k : Cursor) : Prop := ∀ (outer : List Nest) (c : Context),
  c.heap.roots.size = head + 1 → k.depth = outer.length + 1 →
    Continues (head + 1) k.depth (fun v left => do Heap.popRoots head; handOn outer v left)
      (readFrom (.elements head tail :: outer) k.left c) (elements head tail k c)

/-- A stance that says nothing of the roots but how many they are. -/
theorem stance_bare (c : Context) : Stance #[] c.heap.roots.size c.registers c :=
  ⟨Nat.zero_le _, rfl, nofun, rfl⟩

theorem size_of_idle {α : Type} {x : Run α} (hx : Idle x fun _ => True) :
    Yields x c fun _ c' => c'.heap.roots.size = c.heap.roots.size :=
  (hx.yields (stance_bare c)).weaken fun _ _ h => h.1.height

theorem atValue_end (hnext : Token.next? k.left = none) : AtValue k := by
  intro nests c hend _
  have hvalue : value k = atEnd .unexpectedEnd k := by
    rw [value]
    split
    · rfl
    · rename_i hsome
      rw [hsome] at hnext
      cases hnext
  rw [readFrom_none hnext, hend, hvalue]
  exact .atEnd .unexpectedEnd

theorem value_some (hnext : Token.next? k.left = some (token, rest)) :
    value k = within (Token.suffix_of_next? hnext) (start token { k with left := rest }) := by
  rw [value]
  split
  · rename_i hnone
    rw [hnone] at hnext
    cases hnext
  · rename_i hsome
    rw [hsome] at hnext
    cases hnext
    rfl

theorem atValue_some (hnext : Token.next? k.left = some (token, rest))
    (h : AtStart token { k with left := rest }) : AtValue k := by
  intro nests c hend hdepth
  rw [value_some hnext]
  exact (h nests k.left c hnext (.inl hend) hdepth).within _

/-- A token that is an error. -/
theorem atStart_failed {e : ReadError} (hmeet : ∀ nests, Begins nests token →
      meet nests token = pure (.error e true))
    (hstart : start token k = failed e k (List.suffix_refl _)) : AtStart token k := by
  intro nests src c hnext hbegins _
  rw [readFrom_some hnext, effect_of_begins hbegins, hmeet nests hbegins, hstart]
  exact .failed e (List.suffix_refl _)

/-- A token that is a value. -/
theorem atStart_value {x : Run Value} (hx : Idle x fun _ => True)
    (hmeet : ∀ nests, Begins nests token → meet nests token = do return .value (← x) nests)
    (hstart : start token k = do pure (.ok (← x), ⟨k, List.suffix_refl _⟩)) : AtStart token k := by
  intro nests src c hnext hbegins _
  rw [readFrom_some hnext, effect_of_begins hbegins, hmeet nests hbegins, hstart, bind_assoc]
  exact .after (size_of_idle hx) fun v c' hsize => ⟨hsize, rfl, rfl⟩

theorem handOn_quotation (v : Value) (left : List Char) :
    handOn (.quotation :: nests) v left = quotation v >>= fun w => handOn nests w left := bind_assoc _ _ _

theorem handOn_elements (head : Nat) (tail v : Value) (left : List Char) :
    handOn (.elements head tail :: outer) v left =
      append head tail v >>= fun cell => readFrom (.elements head cell :: outer) left := by
  simp only [handOn, goOn, deliver, bind_assoc, pure_bind]

theorem handOn_dotted (head : Nat) (tail v : Value) (left : List Char) :
    handOn (.dotted head tail :: outer) v left =
      liftM (Heap.setCdr tail v) >>= fun _ => readFrom (.closing head :: outer) left := by
  simp only [handOn, goOn, deliver, bind_assoc, pure_bind]

theorem atStart_mark (h : AtValue { k with depth := k.depth + 1 }) : AtStart .mark k := by
  intro nests src c hnext hbegins hdepth
  have hloop : readFrom nests src c = if k.depth ≥ maxNesting then .ok (.error .tooDeep, k.left) c
      else readFrom (.quotation :: nests) k.left c := by
    rw [readFrom_some hnext, effect_of_begins hbegins, meet, ← hdepth]
    split <;> rfl
  rw [hloop, start]
  have hvalue : Continues c.heap.roots.size (k.depth + 1) (handOn (.quotation :: nests))
      (readFrom (.quotation :: nests) k.left c) (value { k with depth := k.depth + 1 } c) :=
    h (.quotation :: nests) c rfl (congrArg (· + 1) hdepth)
  refine (Continues.nested fun _ => hvalue).onValue fun v k' hk c' hsize hdepth' => ?_
  rw [handOn_quotation]
  exact .after (size_of_idle (Idle.quotation v)) fun w c₁ hsize' => ⟨hsize'.trans hsize, hdepth', rfl⟩

theorem atStart_opening (h : ∀ head, AtElements head .nil { k with depth := k.depth + 1 }) :
    AtStart .opening k := by
  intro nests src c hnext hbegins hdepth
  -- with the slot of the list
  let c₀ : Context := { c with heap := { c.heap with roots := c.heap.roots.push .nil } }
  have hloop : readFrom nests src c = if k.depth ≥ maxNesting then .ok (.error .tooDeep, k.left) c
      else readFrom (.elements c.heap.roots.size .nil :: nests) k.left c₀ := by
    rw [readFrom_some hnext, effect_of_begins hbegins, meet, ← hdepth]
    split <;> rfl
  rw [hloop, start]
  refine .nested fun _ => ?_
  have hsize : c₀.heap.roots.size = c.heap.roots.size + 1 := Array.size_push _
  exact (h c.heap.roots.size nests c₀ hsize (congrArg (· + 1) hdepth)).released

variable {head : Nat} {tail : Value}

theorem atElements_end (hnext : Token.next? k.left = none) : AtElements head tail k := by
  intro outer c hsize hdepth
  have helements : elements head tail k = atEnd .unclosedList k := by
    rw [elements]
    split
    · rfl
    · rename_i hsome
      rw [hsome] at hnext
      cases hnext
  rw [readFrom_none hnext, helements, ← hsize]
  exact .atEnd .unclosedList

/-- The list is closed: the loop cuts its slot off at once. -/
theorem continues_close (hsize : c.heap.roots.size = head + 1) (hrest : rest <:+ src) :
    Continues (head + 1) k.depth (fun v left => do Heap.popRoots head; handOn outer v left)
      ((((do return .value (← close head) outer) : Run Effect) >>= goOn src rest) c)
      ((do pure (.ok (← Heap.root head), ⟨{ k with left := rest }, hrest⟩) : Run (Answer src)) c) := by
  have hloop : ((do return .value (← close head) outer) : Run Effect) >>= goOn src rest =
      (do let v ← Heap.root head; Heap.popRoots head; handOn outer v rest) := by
    simp only [close, bind_assoc, pure_bind]
    rfl
  rw [hloop]
  refine .after (Yields.root.weaken fun _ _ h => h ▸ rfl) fun v c' hsame => ?_
  exact ⟨hsame.trans hsize, rfl, rfl⟩

theorem elements_some (hnext : Token.next? k.left = some (token, rest)) :
    elements head tail k =
      if token = .closing then do
        pure (.ok (← Heap.root head), ⟨{ k with left := rest }, Token.suffix_of_next? hnext⟩)
      else if token = .atom ['.'] then
        if tail.isNil then Cursor.failed .misplacedDot k (List.suffix_refl _)
        else
          onValue (value { k with left := rest }) (Token.suffix_of_next? hnext) fun last k' hk => do
            Heap.setCdr tail last
            within (hk.trans (Token.suffix_of_next? hnext)) (ended head k')
      else
        onValue (start token { k with left := rest }) (Token.suffix_of_next? hnext) (fun v k' hk => do
          let cell ← append head tail v
          within (hk.trans (Token.suffix_of_next? hnext)) (elements head cell k')) := by
  rw [elements]
  split
  · rename_i hnone
    rw [hnone] at hnext
    cases hnext
  · rename_i hsome
    rw [hsome] at hnext
    cases hnext
    rfl

theorem atElements_closing (hnext : Token.next? k.left = some (.closing, rest)) :
    AtElements head tail k := by
  intro outer c hsize hdepth
  rw [elements_some hnext, if_pos rfl, readFrom_some hnext]
  exact continues_close hsize _

theorem atElements_leadingDot (hnil : tail.isNil = true)
    (hnext : Token.next? k.left = some (.atom ['.'], rest)) : AtElements head tail k := by
  intro outer c hsize hdepth
  have heffect : effect (.elements head tail :: outer) (.atom ['.']) = pure (.error .misplacedDot false) :=
    if_pos hnil
  rw [elements_some hnext, if_neg nofun, if_pos rfl, if_pos hnil, readFrom_some hnext, heffect, ← hsize]
  exact .failed .misplacedDot (List.suffix_refl _)

theorem ended_none (hnext : Token.next? k.left = none) : ended head k = atEnd .unclosedList k := by
  unfold ended
  split
  · rfl
  · rename_i hsome
    rw [hsome] at hnext
    cases hnext

theorem ended_some (hnext : Token.next? k.left = some (token, rest)) : ended head k =
    if token = .closing then do
      pure (.ok (← Heap.root head), ⟨{ k with left := rest }, Token.suffix_of_next? hnext⟩)
    else Cursor.failed .misplacedDot k (List.suffix_refl _) := by
  unfold ended
  split
  · rename_i hnone
    rw [hnone] at hnext
    cases hnext
  · rename_i hsome
    rw [hsome] at hnext
    cases hnext
    rfl

/-- Behind the tail of a list. -/
theorem continues_ended (hsize : c.heap.roots.size = head + 1) :
    Continues (head + 1) k.depth (fun v left => do Heap.popRoots head; handOn outer v left)
      (readFrom (.closing head :: outer) k.left c) (ended head k c) := by
  cases hnext : Token.next? k.left with
  | none =>
    rw [readFrom_none hnext, ended_none hnext, ← hsize]
    exact .atEnd .unclosedList
  | some p =>
    obtain ⟨token, rest⟩ := p
    rw [readFrom_some hnext, ended_some hnext]
    by_cases htoken : token = .closing
    · subst htoken
      rw [if_pos rfl]
      exact continues_close hsize _
    · have heffect : effect (.closing head :: outer) token = pure (.error .misplacedDot false) := by
        cases token with
        | closing => exact absurd rfl htoken
        | _ => rfl
      rw [if_neg htoken, heffect, ← hsize]
      exact .failed .misplacedDot (List.suffix_refl _)

theorem atElements_dot (hnil : ¬ tail.isNil = true)
    (hnext : Token.next? k.left = some (.atom ['.'], rest)) (h : AtValue { k with left := rest }) :
    AtElements head tail k := by
  intro outer c hsize hdepth
  have heffect : effect (.elements head tail :: outer) (.atom ['.']) = pure (.more (.dotted head tail :: outer)) :=
    if_neg hnil
  rw [elements_some hnext, if_neg nofun, if_pos rfl, if_neg hnil, readFrom_some hnext, heffect]
  have hvalue := h (.dotted head tail :: outer) c rfl hdepth
  rw [hsize] at hvalue
  refine hvalue.onValue fun last k' hk c' hsize' hdepth' => ?_
  rw [handOn_dotted]
  refine .after (size_of_idle (Idle.setCdr tail last)) fun _ c₁ hsame => ?_
  exact .within _ (hdepth' ▸ continues_ended (hsame.trans hsize'))

theorem atElements_element (hnext : Token.next? k.left = some (token, rest)) (hclosing : token ≠ .closing)
    (hdot : token ≠ .atom ['.']) (h : AtStart token { k with left := rest })
    (hmore : ∀ k' : Cursor, k'.left <:+ rest → ∀ cell, AtElements head cell k') :
    AtElements head tail k := by
  intro outer c hsize hdepth
  rw [elements_some hnext, if_neg hclosing, if_neg hdot]
  have hbegins : Begins (.elements head tail :: outer) token := .inr ⟨head, tail, outer, rfl, hclosing, hdot⟩
  have hvalue := h (.elements head tail :: outer) k.left c hnext hbegins hdepth
  rw [hsize] at hvalue
  refine hvalue.onValue fun v k' hk c' hsize' hdepth' => ?_
  have happend : Yields (append head tail v) c' fun _ c₁ => c₁.heap.roots.size = c'.heap.roots.size :=
    (Yields.append tail (stance_bare c') (Nat.zero_le _)).weaken fun _ _ hc => hc.height
  rw [handOn_elements]
  refine .after happend fun cell c₁ hsame => ?_
  exact .within _ (hdepth' ▸ hmore k' hk cell outer c₁ (hsame.trans hsize') (hdepth'.trans hdepth))

/-- **The loop goes on where the descent has answered**, by induction on its calls. -/
theorem continues : (∀ k, AtValue k) ∧ (∀ token k, AtStart token k) ∧
    ∀ head tail k, AtElements head tail k := by
  refine value.mutual_induct AtValue AtStart AtElements ?_ ?_ ?_ ?_ ?_ ?_ ?_ ?_ ?_ ?_ ?_ ?_ ?_
  · exact fun k hnext => atValue_end hnext
  · exact fun k token rest hnext h => atValue_some hnext h
  · exact fun k => atStart_failed (fun nests h => meet_closing h) (by rw [start])
  · exact fun k => atStart_failed (fun nests h => rfl) (by rw [start])
  · exact fun k h => atStart_opening h
  · exact fun k h => atStart_mark h
  · exact fun k s => atStart_value (Idle.str _) (fun nests h => rfl) (by rw [start])
  · exact fun k name => atStart_value (Idle.atomValue name) (fun nests h => meet_atom h) (by rw [start])
  · exact fun head tail k hnext => atElements_end hnext
  · exact fun head tail k rest hnext _ => atElements_closing hnext
  · exact fun head tail k rest hnil hnext _ _ => atElements_leadingDot hnil hnext
  · exact fun head tail k rest hnil hnext _ _ h => atElements_dot hnil hnext h
  · exact fun head tail k token rest hnext _ hclosing hdot h hmore =>
      atElements_element hnext hclosing hdot h hmore

/-! ## 4. The reader -/

/-- The answer of the reader, and where it leaves a cursor. -/
def back (p : Except ReadError (Option Value) × List Char) : Except ReadError (Option Value) × Cursor :=
  (p.1, ⟨p.2, 0⟩)

/-- **The descent reads what the loop reads, leaves the same context, and is back at depth zero.** -/
theorem read_eq (src : List Char) : read ⟨src, 0⟩ = Reader.read src >>= fun p => pure (back p) := by
  funext c
  cases hnext : Token.next? src with
  | none =>
    rw [read_none hnext, read, hnext]
    rfl
  | some p =>
    have hread : read ⟨src, 0⟩ = value ⟨src, 0⟩ >>= fun q => pure (q.1.map some, q.2.val) := by
      rw [read, hnext]
    have hloop : (Reader.read src >>= fun p => pure (back p)) c =
        ((readFrom [] src >>= settle c.heap.roots.size) >>= fun p => pure (back p)) c := by
      rw [read_some hnext]
      rfl
    have hanswer := continues.1 ⟨src, 0⟩ [] c rfl rfl
    rw [hread, hloop]
    cases hrun : value ⟨src, 0⟩ c with
    | error fault c' =>
      rw [hrun] at hanswer
      rw [run_bind_error hrun, run_bind_error (run_bind_error hanswer)]
    | ok q c' =>
      rw [hrun] at hanswer
      rw [run_bind hrun]
      obtain ⟨r | v, ⟨⟨left, depth⟩, hleft⟩⟩ := q
      · obtain ⟨rfl, c₁, hrest, hpop⟩ := hanswer
        have hsettle : settle c.heap.roots.size (.error r, left) c₁ = .ok (.error r, left) c' := run_bind hpop
        rw [run_bind ((run_bind hrest).trans hsettle)]
        rfl
      · obtain ⟨-, rfl, hrest⟩ := hanswer
        have hhanded : readFrom [] src c = .ok (.ok v, left) c' := hrest
        have hsettle : settle c.heap.roots.size (.ok v, left) c' = .ok (.ok (some v), left) c' := rfl
        rw [run_bind ((run_bind hhanded).trans hsettle)]
        rfl

end Cursor

end LispMachine
