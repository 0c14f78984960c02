import LispMachine.Proofs.Source.Descent
import LispMachine.Proofs.Source.Supply

/-!
# Calls of one reader

A reader may be called again after an error, and after the end of its text:

* `Cursor.Calls` -- calls of one reader, one after the other, with what they report;
* `Cursor.Advances` -- **what one call does**: it goes on in the text by a character or more, or reports the
  end, and leaves the depth and the root stack as they were. `Cursor.advances` -- every call does;
* `Cursor.Calls.reports` -- there are **no more reports than characters** before the end is reported, and
  none but of the end afterwards;
* `Cursor.Calls.progress` -- all of this for any calls on any text, with errors or without.
-/

namespace LispMachine

namespace Cursor

variable {src : List Char} {k k' : Cursor} {c c' : Context} {r : Except ReadError (Option Value)}
variable {rs : List (Except ReadError (Option Value))}

/-! ## 1. One call -/

/-- **What a call does** from the cursor `k`, if it reports `r` and leaves the cursor `k'`. -/
structure Advances (k : Cursor) (c : Context) (r : Except ReadError (Option Value)) (k' : Cursor)
    (c' : Context) : Prop where
  /-- The reader reports the same, and has the same text left. -/
  reader : Reader.read k.left c = .ok (r, k'.left) c'
  /-- It goes on by a character or more, and not beyond the end. -/
  forward : r ≠ .ok none → ∃ taken, taken ≠ [] ∧ k.left = taken ++ k'.left
  /-- Nothing happens at the end. -/
  ended : r = .ok none → k'.left = [] ∧ c' = c
  depth : k'.depth = 0
  roots : c'.heap.roots = c.heap.roots

/-- A call that reports something has taken the first token off the text. -/
theorem forward (hnext : Token.next? k.left ≠ none) (hrun : k.read c = .ok (r, k') c') :
    ∃ taken, taken ≠ [] ∧ k.left = taken ++ k'.left := by
  obtain ⟨⟨token, rest⟩, hnext⟩ := Option.ne_none_iff_exists'.mp hnext
  rw [read, hnext, value_some hnext] at hrun
  obtain ⟨⟨_, k₁⟩, c₁, hvalue, hpure⟩ := bind_eq_ok.mp hrun
  obtain ⟨⟨_, k₂⟩, c₂, -, hwithin⟩ := bind_eq_ok.mp hvalue
  cases hpure
  cases hwithin
  -- behind the token already
  have hlt : k₂.val.left.length < k.left.length :=
    Nat.lt_of_le_of_lt k₂.property.length_le (Token.length_lt_of_next? hnext)
  obtain ⟨taken, htaken⟩ := k₂.property.trans (Token.suffix_of_next? hnext)
  refine ⟨taken, ?_, htaken.symm⟩
  rintro rfl
  rw [List.nil_append] at htaken
  exact absurd (congrArg List.length htaken) (Nat.ne_of_lt hlt)

/-- A call is one of the reader, back at depth zero. -/
theorem of_read (hdepth : k.depth = 0) (hrun : k.read c = .ok (r, k') c') :
    Reader.read k.left c = .ok (r, k'.left) c' ∧ k'.depth = 0 := by
  obtain ⟨left, depth⟩ := k
  subst hdepth
  rw [read_eq] at hrun
  obtain ⟨⟨_, rest⟩, _, hread, hback⟩ := bind_eq_ok.mp hrun
  cases hback
  exact ⟨hread, rfl⟩

/-- It fails like one of the reader. -/
theorem error_of_read {f : Fault} (hdepth : k.depth = 0) (hrun : k.read c = .error f c') :
    Reader.read k.left c = .error f c' := by
  obtain ⟨left, depth⟩ := k
  subst hdepth
  rw [read_eq] at hrun
  cases hread : Reader.read left c with
  | ok p c₁ =>
    rw [run_bind hread] at hrun
    cases hrun
  | error e c₁ =>
    rw [run_bind_error hread] at hrun
    cases hrun
    rfl

/-- **Every call of a reader at depth zero advances.** -/
theorem advances (hdepth : k.depth = 0) (hrun : k.read c = .ok (r, k') c') :
    k.Advances c r k' c' := by
  obtain ⟨hread, hback⟩ := of_read hdepth hrun
  have hroots := ((Idle.read k.left).yields (.refl c)) _ _ hread
  have hnone : Token.next? k.left = none → r = .ok none ∧ k'.left = [] ∧ c' = c := by
    intro hnext
    rw [Reader.read_none hnext] at hread
    replace hread : EStateM.Result.ok (.ok none, []) c = .ok (r, k'.left) c' := hread
    injection hread with hanswer hcontext
    injection hanswer with hreport hleft
    exact ⟨hreport.symm, hleft.symm, hcontext.symm⟩
  refine ⟨hread, fun hr => forward (fun hnext => hr (hnone hnext).1) hrun, fun hr => ?_, hback,
    hroots.1.roots_eq⟩
  subst hr
  exact (hnone (Reader.next?_eq_none_of_read hread)).2

/-! ## 2. Calls one after the other -/

/-- **Calls of one reader**, past errors and past the end, and what they report. -/
inductive Calls : Cursor → Context → List (Except ReadError (Option Value)) → Cursor → Context → Prop where
  | nil {k : Cursor} {c : Context} : Calls k c [] k c
  | cons {k k' k'' : Cursor} {c c' c'' : Context} {r : Except ReadError (Option Value)}
      {rs : List (Except ReadError (Option Value))} (hrun : k.read c = .ok (r, k') c')
      (h : Calls k' c' rs k'' c'') : Calls k c (r :: rs) k'' c''

namespace Calls

theorem depth (h : Calls k c rs k' c') (hdepth : k.depth = 0) : k'.depth = 0 := by
  induction h with
  | nil => exact hdepth
  | cons hrun _ ih => exact ih (advances hdepth hrun).depth

theorem roots (h : Calls k c rs k' c') (hdepth : k.depth = 0) : c'.heap.roots = c.heap.roots := by
  induction h with
  | nil => rfl
  | cons hrun _ ih =>
    have hstep := advances hdepth hrun
    exact (ih hstep.depth).trans hstep.roots

/-- The cursor goes no way but forward. -/
theorem suffix (h : Calls k c rs k' c') (hdepth : k.depth = 0) : k'.left <:+ k.left := by
  induction h with
  | nil => exact List.suffix_refl _
  | @cons k k₁ k₂ c c₁ c₂ r rs hrun _ ih =>
    have hstep := advances hdepth hrun
    refine (ih hstep.depth).trans ?_
    by_cases hr : r = .ok none
    · rw [(hstep.ended hr).1]
      exact List.nil_suffix
    · obtain ⟨taken, -, htaken⟩ := hstep.forward hr
      exact ⟨taken, htaken.symm⟩

/-- **No more reports than characters, and then the end**, ever after. -/
theorem reports (h : Calls k c rs k' c') (hdepth : k.depth = 0) : ∃ made ends,
    rs = made ++ List.replicate ends (.ok none) ∧ (∀ r ∈ made, r ≠ .ok none) ∧
      made.length + k'.left.length ≤ k.left.length := by
  induction h with
  | nil => exact ⟨[], 0, rfl, nofun, by simp⟩
  | @cons k k₁ k₂ c c₁ c₂ r rs hrun _ ih =>
    have hstep := advances hdepth hrun
    obtain ⟨made, ends, rfl, hmade, hlen⟩ := ih hstep.depth
    by_cases hr : r = .ok none
    · -- nothing was left, so nothing more is reported
      rw [(hstep.ended hr).1, List.length_nil] at hlen
      have hnil : made = [] := List.eq_nil_of_length_eq_zero (by omega)
      subst hnil
      refine ⟨[], ends + 1, by rw [hr]; rfl, nofun, ?_⟩
      simp only [List.length_nil] at hlen ⊢
      omega
    · obtain ⟨taken, hne, htaken⟩ := hstep.forward hr
      have hpos := List.length_pos_iff.mpr hne
      refine ⟨r :: made, ends, rfl, ?_, ?_⟩
      · exact List.forall_mem_cons.mpr ⟨hr, hmade⟩
      · rw [htaken, List.length_append, List.length_cons]
        omega

theorem sane (h : Calls k c rs k' c') (hdepth : k.depth = 0) (hc : c.Sane) : c'.Sane := by
  induction h with
  | nil => exact hc
  | cons hrun _ ih =>
    have hstep := advances hdepth hrun
    exact ih hstep.depth ((Attains.read hc _).ok hstep.reader).1

/-- Two cells for each character are left for those that are left. -/
theorem stocked (h : Calls k c rs k' c') (hdepth : k.depth = 0)
    (hs : c.heap.Stocked (2 * k.left.length)) : c'.heap.Stocked (2 * k'.left.length) := by
  induction h with
  | nil => exact hs
  | @cons k k₁ k₂ c c₁ c₂ r rs hrun _ ih =>
    have hstep := advances hdepth hrun
    have hspends := Spends.read k.left c 0 hs
    rw [hstep.reader] at hspends
    exact ih hstep.depth hspends

end Calls

/-- A reader at depth zero can be called, unless the heap is exhausted. -/
theorem attains (hdepth : k.depth = 0) (hc : c.Sane) :
    Attains k.read c fun p c' => k.Advances c p.1 p.2 c' := by
  unfold Attains
  cases hrun : k.read c with
  | ok p c' => exact advances hdepth hrun
  | error f c' =>
    have hread := Attains.read hc k.left
    rw [Attains, error_of_read hdepth hrun] at hread
    exact hread

/-- With two cells for each character it is not. -/
theorem exists_read (hdepth : k.depth = 0) (hc : c.Sane) (hs : c.heap.Stocked (2 * k.left.length)) :
    ∃ r k' c', k.read c = .ok (r, k') c' := by
  have hattains := attains hdepth hc
  cases hrun : k.read c with
  | ok p c' => exact ⟨p.1, p.2, c', rfl⟩
  | error f c' =>
    have hspends := Spends.read k.left c 0 hs
    rw [error_of_read hdepth hrun] at hspends
    rw [Attains, hrun] at hattains
    exact absurd hattains hspends

/-- **All calls of a reader on a text, past errors and past the end**: the depth is zero and the roots are as
    before, the cursor is in the text, there are no more reports than characters and then none but of the end,
    and the next call advances. -/
theorem Calls.progress (hc : c.Sane) (h : Calls ⟨src, 0⟩ c rs k c') :
    k.depth = 0 ∧ c'.heap.roots = c.heap.roots ∧ k.left <:+ src ∧
    (∃ made ends, rs = made ++ List.replicate ends (.ok none) ∧ (∀ r ∈ made, r ≠ .ok none) ∧
      made.length + k.left.length ≤ src.length) ∧
    Attains k.read c' (fun p c'' => k.Advances c' p.1 p.2 c'') ∧
    (c.heap.Stocked (2 * src.length) → ∃ r k' c'', k.read c' = .ok (r, k') c'') := by
  have hdepth := h.depth rfl
  exact ⟨hdepth, h.roots rfl, h.suffix rfl, h.reports rfl, attains hdepth (h.sane rfl hc),
    fun hs => exists_read hdepth (h.sane rfl hc) (h.stocked rfl hs)⟩

/-- Any number of calls can be made. -/
theorem exists_calls (n : Nat) (hdepth : k.depth = 0) (hc : c.Sane)
    (hs : c.heap.Stocked (2 * k.left.length)) : ∃ rs k' c', Calls k c rs k' c' ∧ rs.length = n := by
  induction n generalizing k c with
  | zero => exact ⟨[], k, c, .nil, rfl⟩
  | succ n ih =>
    obtain ⟨r, k₁, c₁, hrun⟩ := exists_read hdepth hc hs
    have hone : Calls k c [r] k₁ c₁ := .cons hrun .nil
    obtain ⟨rs, k', c', h, hlen⟩ := ih (hone.depth hdepth) (hone.sane hdepth hc) (hone.stocked hdepth hs)
    exact ⟨r :: rs, k', c', .cons hrun h, congrArg (· + 1) hlen⟩

/-- More calls than characters on a text with three errors. -/
theorem Calls.progress_malformed : ∃ (c : Context) (rs : List (Except ReadError (Option Value)))
    (k : Cursor) (c' : Context), c.Sane ∧ Calls ⟨") (. x '".toList, 0⟩ c rs k c' ∧ rs.length = 9 ∧
      k.depth = 0 ∧ c'.heap.roots = c.heap.roots ∧ .ok none ∈ rs := by
  obtain ⟨c, hc, hs⟩ := Context.exists_stocked (2 * ") (. x '".toList.length)
  obtain ⟨rs, k, c', h, hlen⟩ := exists_calls (k := ⟨") (. x '".toList, 0⟩) 9 rfl hc hs
  obtain ⟨hdepth, hroots, -, ⟨made, ends, rfl, -, hmade⟩, -⟩ := h.progress hc
  refine ⟨_, _, k, c', hc, h, hlen, hdepth, hroots, ?_⟩
  rw [List.length_append, List.length_replicate] at hlen
  have hsize : ") (. x '".toList.length = 8 := by decide
  have hends : ends ≠ 0 := by omega
  exact List.mem_append_right _ (List.mem_replicate.mpr ⟨hends, rfl⟩)

end Cursor

end LispMachine
