import PageQuery.Proofs.Bounds

/-!
# What follows once a reader succeeds

`r.Ensures s Q`: whatever `r` gives from the state `s`, and the state it leaves, satisfy `Q`.
There is one rule for every step that a reader is made of; a rule of the grammar is taken apart by
them down to the rules that it calls.

`s.Advances n t`: at least `n` tokens are read from one state to the other.
-/

namespace PageQuery.Script

namespace ReaderState

variable {s t u : ReaderState} {m n : Nat}

/-- at least so many tokens are read from one state to the other -/
def Advances (s : ReaderState) (n : Nat) (t : ReaderState) : Prop :=
  ∃ ls, s.Reads ls t ∧ n ≤ ls.length

theorem Advances.refl (s : ReaderState) : s.Advances 0 s := ⟨[], .nil s, le_rfl⟩

theorem Advances.trans (h : s.Advances m t) (h' : t.Advances n u) : s.Advances (m + n) u := by
  obtain ⟨ls, hls, hm⟩ := h
  obtain ⟨ms, hms, hn⟩ := h'
  exact ⟨ls ++ ms, hls.append hms, by rw [List.length_append]; exact Nat.add_le_add hm hn⟩

theorem Advances.mono (h : s.Advances m t) (hle : n ≤ m) : s.Advances n t := by
  obtain ⟨ls, hls, hm⟩ := h
  exact ⟨ls, hls, hle.trans hm⟩

/-- the token that is ahead -/
def tokenAhead (s : ReaderState) : Option Token := s.ahead.map (·.token)

/-- one token, the one ahead, is read from one state to the other -/
def Takes (s : ReaderState) (k : Token) (t : ReaderState) : Prop :=
  ∃ l, s.ahead = some l ∧ l.token = k ∧ k ≠ .invalid ∧ t = s.past l s.after

namespace Takes

variable {k : Token}

theorem advances (h : s.Takes k t) : s.Advances 1 t := by
  obtain ⟨l, hl, rfl, hv, rfl⟩ := h
  exact ⟨[l], .token hl hv (.nil _), le_rfl⟩

theorem tokenAhead_eq (h : s.Takes k t) : s.tokenAhead = some k := by
  obtain ⟨l, hl, rfl, -, -⟩ := h
  rw [tokenAhead, hl, Option.map_some]

end Takes

end ReaderState

namespace Reader

variable {α β : Type} {s : ReaderState} {Q : α → ReaderState → Prop}

/-- whatever the reader gives from the state, and the state it leaves, are related -/
def Ensures (r : Reader α) (s : ReaderState) (Q : α → ReaderState → Prop) : Prop :=
  ∀ a t, r.run s = .ok (a, t) → Q a t

theorem Ensures.mono {r : Reader α} {R : α → ReaderState → Prop} (h : r.Ensures s R)
    (hRQ : ∀ a t, R a t → Q a t) : r.Ensures s Q :=
  fun a t hrun => hRQ a t (h a t hrun)

theorem Ensures.and {r : Reader α} {R : α → ReaderState → Prop} (h : r.Ensures s Q)
    (h' : r.Ensures s R) : r.Ensures s fun a t => Q a t ∧ R a t :=
  fun a t hrun => ⟨h a t hrun, h' a t hrun⟩

@[simp] theorem ensures_true {r : Reader α} : r.Ensures s fun _ _ => True :=
  fun _ _ _ => trivial

/-- every reader goes forward -/
theorem ensures_advances (r : Reader α) (s : ReaderState) :
    r.Ensures s fun _ t => s.Advances 0 t := by
  intro _ t hrun
  obtain ⟨ls, hls⟩ := r.forward hrun
  exact ⟨ls, hls, Nat.zero_le _⟩

/-! ### Steps -/

@[simp] theorem ensures_pure {a : α} : (pure a : Reader α).Ensures s Q ↔ Q a s := by
  constructor
  · exact fun h => h a s rfl
  · rintro h _ _ ⟨⟩
    exact h

@[simp] theorem ensures_bind {r : Reader α} {f : α → Reader β} {Q : β → ReaderState → Prop} :
    (r >>= f).Ensures s Q ↔ r.Ensures s fun a t => (f a).Ensures t Q := by
  unfold Ensures
  simp only [bind]
  cases r.run s with
  | error o => simp
  | ok p => simp [Prod.ext_iff]

@[simp] theorem ensures_ite {c : Prop} [Decidable c] {r r' : Reader α} :
    (if c then r else r').Ensures s Q ↔ (c → r.Ensures s Q) ∧ (¬ c → r'.Ensures s Q) := by
  by_cases hc : c <;> simp [hc]

@[simp] theorem ensures_failAt {offset : Nat} : (failAt offset : Reader α).Ensures s Q := by
  rintro _ _ ⟨⟩

theorem ensures_observe {view : ReaderState → α} : (observe view).Ensures s Q ↔ Q (view s) s := by
  constructor
  · exact fun h => h _ s rfl
  · rintro h _ _ ⟨⟩
    exact h

@[simp] theorem ensures_position {Q : Nat → ReaderState → Prop} :
    position.Ensures s Q ↔ Q s.position s := ensures_observe

@[simp] theorem ensures_lastStop {Q : Nat → ReaderState → Prop} :
    lastStop.Ensures s Q ↔ Q s.stop s := ensures_observe

@[simp] theorem ensures_newlineAhead {Q : Bool → ReaderState → Prop} :
    newlineAhead.Ensures s Q ↔ Q (s.ahead.any (·.newline)) s := ensures_observe

@[simp] theorem ensures_peek {Q : Option Token → ReaderState → Prop} :
    peek.Ensures s Q ↔ Q s.tokenAhead s := ensures_observe

@[simp] theorem ensures_peekSecond {Q : Option Lexeme → ReaderState → Prop} :
    peekSecond.Ensures s Q ↔ Q s.after.lookAhead.1 s := ensures_observe

@[simp] theorem ensures_fail : (fail : Reader α).Ensures s Q := by
  simp [fail]

@[simp] theorem ensures_isAhead {t : Token} {Q : Bool → ReaderState → Prop} :
    (isAhead t).Ensures s Q ↔ Q (s.tokenAhead == some t) s := by
  simp [isAhead]

theorem ensures_advance {t : Token} {Q : Unit → ReaderState → Prop} (ht : s.tokenAhead = some t) :
    advance.Ensures s Q ↔ ∀ u, s.Takes t u → Q () u := by
  have hrun : advance.run s = s.advance.map ((), ·) := rfl
  obtain ⟨l, hl, rfl⟩ := Option.map_eq_some_iff.1 ht
  unfold Ensures
  rw [hrun, ReaderState.advance, hl]
  by_cases hv : l.token = .invalid
  · simp [hv, Except.map, ReaderState.Takes]
  · constructor
    · rintro h _ ⟨m, hm, -, -, rfl⟩
      obtain rfl : l = m := Option.some.inj (hl.symm.trans hm)
      exact h () _ (by simp [hv, Except.map])
    · intro h _ u hu
      simp only [hv, if_false, Except.map, Except.ok.injEq, Prod.mk.injEq, true_and] at hu
      exact h u ⟨l, hl, rfl, hv, hu.symm⟩

@[simp] theorem ensures_expect {t : Token} {Q : Unit → ReaderState → Prop} :
    (expect t).Ensures s Q ↔ ∀ u, s.Takes t u → Q () u := by
  by_cases ht : s.tokenAhead = some t
  · simp [expect, ht, ensures_advance ht]
  · have hnot : ∀ u, ¬ s.Takes t u := fun u hu => ht hu.tokenAhead_eq
    simp [expect, ht, hnot]

@[simp] theorem ensures_eat {t : Token} {Q : Bool → ReaderState → Prop} :
    (eat t).Ensures s Q ↔
      (∀ u, s.Takes t u → Q true u) ∧ (s.tokenAhead ≠ some t → Q false s) := by
  by_cases ht : s.tokenAhead = some t
  · simp [eat, ht, ensures_advance ht]
  · have hnot : ∀ u, ¬ s.Takes t u := fun u hu => ht hu.tokenAhead_eq
    simp [eat, ht, hnot]

theorem ensures_ifEat {k : Token} {r r' : Reader α} :
    (do if ← eat k then r else r' : Reader α).Ensures s Q ↔
      (∀ u, s.Takes k u → r.Ensures u Q) ∧ (s.tokenAhead ≠ some k → r'.Ensures s Q) := by
  simp

theorem ensures_ifAhead {k : Token} {r r' : Reader α} :
    (do if ← isAhead k then r else r' : Reader α).Ensures s Q ↔
      (s.tokenAhead = some k → r.Ensures s Q) ∧ (s.tokenAhead ≠ some k → r'.Ensures s Q) := by
  simp

theorem ensures_regex (s : ReaderState) : regex.Ensures s fun _ t => s.Advances 1 t := by
  intro _ t hrun
  simp only [regex] at hrun
  split at hrun
  · rename_i l c hr
    cases hrun
    exact ⟨[l], .regex hr (.nil _), le_rfl⟩
  · cases hrun

theorem ensures_privateName (s : ReaderState) :
    privateName.Ensures s fun _ t => s.Advances 1 t := by
  rw [privateName, ensures_bind, ensures_expect]
  exact fun u hu => (ensures_advances _ u).mono fun _ t ht => hu.advances.trans ht

end Reader

end PageQuery.Script
