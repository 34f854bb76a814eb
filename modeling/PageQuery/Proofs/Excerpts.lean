import PageQuery.Proofs.Phrases

/-!
# Parts of a script that are read twice

An `Excerpt` is a part of a script that is read where it stands and by itself as well.

* `x.Mirror m s s'` — the states `s` of the one reading and `s'` of the other stand before the same
  tokens of the excerpt, fewer than `m`;
* `x.Agree r r' s s' R` — if `r` reads on within the excerpt from `s`, then `r'` reads the same tokens
  from `s'`, and what the two give is related by `R`.

There is one rule for every step that a reader is made of, as there is for `Reader.Ensures`.  At the
end of the excerpt the script goes on with a token that closes an item, and the reading by itself has
no token any more; a step that takes a token is never made there.
-/

namespace PageQuery.Script

open ReaderState

/-- the same token further on in a text -/
structure Lexeme.Moved (n : Nat) (l l' : Lexeme) : Prop where
  token : l.token = l'.token
  start : l.start = l'.start + n
  stop : l.stop = l'.stop + n

theorem ReaderState.Advances.length_taken {s t : ReaderState} {n : Nat} (h : s.Advances n t) :
    s.taken.length + n ≤ t.taken.length := by
  obtain ⟨ls, hls, hn⟩ := h
  rw [taken_of_reads hls, List.length_append, List.length_reverse]
  omega

theorem ReaderState.Takes.ahead_eq {s t : ReaderState} {k : Token} (h : s.Takes k t) :
    t.ahead = s.after.lookAhead.1 := by
  obtain ⟨l, -, -, -, rfl⟩ := h
  rfl

theorem ReaderState.Takes.tokenAhead_of_any {s t : ReaderState} {k c : Token} (h : s.Takes k t)
    (hc : (s.after.lookAhead.1.any fun l => l.token == c) = true) : t.tokenAhead = some c := by
  rw [tokenAhead, h.ahead_eq]
  rcases hl : s.after.lookAhead.1 with _ | l
  · rw [hl] at hc
    cases hc
  · rw [hl] at hc
    exact congrArg some (eq_of_beq hc)

/-- a part of a script that is read by itself as well -/
structure Excerpt where
  /-- in the script, behind the excerpt -/
  finish : ReaderState
  /-- how many bytes stand before the excerpt -/
  shift : Nat
  /-- how many tokens stand before the excerpt -/
  origin : Nat
  closed : finish.EndsItem
  plain : ∀ l ∈ finish.taken, l.token ≠ .regex

namespace Excerpt

variable {x : Excerpt} {s s' t t' : ReaderState} {l l' : Lexeme} {k : Token} {m n : Nat}

/-- The states stand before the same tokens of the excerpt.  Whether a line ended before a token is
the same for all but the first one. -/
inductive Track (x : Excerpt) : ReaderState → ReaderState → Prop
  | finish {s' : ReaderState} : s'.ahead = none → Track x x.finish s'
  | token {s s' : ReaderState} {l l' : Lexeme} : s.ahead = some l → s'.ahead = some l' →
    l.token ≠ .invalid → l.Moved x.shift l' → (x.origin < s.taken.length → l.newline = l'.newline) →
    Track x (s.past l s.after) (s'.past l' s'.after) → Track x s s'

/-- a token of the excerpt was read -/
def Begun (x : Excerpt) (s : ReaderState) : Prop := x.origin < s.taken.length

/-- the states stand at the same place of the excerpt -/
structure Aligned (x : Excerpt) (s s' : ReaderState) : Prop where
  track : x.Track s s'
  stop : x.Begun s → s.stop = s'.stop + x.shift

/-- fewer than `m` tokens of the excerpt are left -/
def Within (x : Excerpt) (m : Nat) (s : ReaderState) : Prop :=
  x.finish.taken.length < s.taken.length + m

/-- the states stand at the same place of the excerpt, and fewer than `m` tokens of it are left -/
structure Mirror (x : Excerpt) (m : Nat) (s s' : ReaderState) : Prop extends Aligned x s s' where
  behind : x.origin ≤ s.taken.length
  within : x.Within m s

/-- the states stand before the same token of the excerpt -/
structure Inside (x : Excerpt) (s s' : ReaderState) (l l' : Lexeme) : Prop where
  ahead : s.ahead = some l
  ahead' : s'.ahead = some l'
  valid : l.token ≠ .invalid
  moved : l.Moved x.shift l'
  newline : x.Begun s → l.newline = l'.newline
  track : x.Track (s.past l s.after) (s'.past l' s'.after)

/-- the states stand at the end of the excerpt -/
structure AtEnd (x : Excerpt) (s s' : ReaderState) : Prop where
  state : s = x.finish
  ahead' : s'.ahead = none

/-! ### Places in the excerpt -/

theorem Track.reaches (h : x.Track s s') : s.Advances 0 x.finish := by
  induction h with
  | finish _ => exact .refl _
  | token hl _ hv _ _ _ ih =>
    have hone : Advances _ 1 _ := Takes.advances ⟨_, hl, rfl, hv, rfl⟩
    exact (hone.trans ih).mono (Nat.zero_le _)

theorem Track.cases (h : x.Track s s') : (∃ l l', x.Inside s s' l l') ∨ x.AtEnd s s' := by
  cases h with
  | finish hend => exact .inr ⟨rfl, hend⟩
  | token hl hl' hv hmoved hnewline ht => exact .inl ⟨_, _, hl, hl', hv, hmoved, hnewline, ht⟩

theorem Aligned.reaches (h : x.Aligned s s') : s.Advances 0 x.finish := h.track.reaches

theorem Inside.tokenAhead (h : x.Inside s s' l l') : s.tokenAhead = some l.token := by
  rw [ReaderState.tokenAhead, h.ahead, Option.map_some]

theorem Inside.tokenAhead' (h : x.Inside s s' l l') : s'.tokenAhead = some l.token := by
  rw [ReaderState.tokenAhead, h.ahead', Option.map_some, h.moved.token]

theorem Inside.position (h : x.Inside s s' l l') : s.position = s'.position + x.shift := by
  rw [ReaderState.position, ReaderState.position, h.ahead, h.ahead']
  exact h.moved.start

theorem AtEnd.tokenAhead (h : x.AtEnd s s') :
    ∃ k, s.tokenAhead = some k ∧ k.closesItem = true ∧ s'.tokenAhead = none := by
  obtain ⟨k, hk, hclose⟩ := x.closed
  exact ⟨k, h.state ▸ hk, hclose, by rw [ReaderState.tokenAhead, h.ahead', Option.map_none]⟩

/-- Nothing is read beyond the excerpt. -/
theorem not_advances_finish (h : x.finish.Advances 1 t) : ¬ t.Advances 0 x.finish := by
  intro ht
  have := (h.trans ht).length_taken
  omega

theorem AtEnd.not_advances (h : x.AtEnd s s') (hst : s.Advances 1 t) : ¬ t.Advances 0 x.finish :=
  not_advances_finish (h.state ▸ hst)

theorem Within.mono (h : x.Within m s) (hle : m ≤ n) : x.Within n s := by
  unfold Within at h ⊢
  omega

theorem Within.behind (h : x.Within m s) (hst : s.Advances n t) : x.Within m t := by
  have := hst.length_taken
  unfold Within at h ⊢
  omega

/-- One token read is one token less that is left. -/
theorem Within.less (h : x.Within (m + 1) s) (hst : s.Advances 1 t) : x.Within m t := by
  have := hst.length_taken
  unfold Within at h ⊢
  omega

theorem Aligned.not_within_zero (h : x.Aligned s s') : ¬ x.Within 0 s := by
  have := h.reaches.length_taken
  unfold Within
  omega

theorem Begun.behind (h : x.Begun s) (hst : s.Advances n t) : x.Begun t := by
  have := hst.length_taken
  unfold Begun at h ⊢
  omega

namespace Mirror

theorem mono (h : x.Mirror m s s') (hle : m ≤ n) : x.Mirror n s s' :=
  { h with within := h.within.mono hle }

theorem next (h : x.Mirror m s s') (hst : s.Advances n t) (ht : x.Aligned t t') :
    x.Mirror m t t' where
  toAligned := ht
  behind := by
    have := hst.length_taken
    have := h.behind
    omega
  within := h.within.behind hst

theorem less (h : x.Mirror (m + 1) s s') (hst : s.Advances 1 t) (ht : x.Mirror n t t') :
    x.Mirror m t t' :=
  { ht with within := h.within.less hst }

theorem begun (h : x.Mirror m s s') (hst : s.Advances 1 t) : x.Begun t := by
  have := hst.length_taken
  have := h.behind
  unfold Begun
  omega

/-- There is a token left to be counted. -/
theorem exists_succ (h : x.Mirror m s s') : ∃ k, m = k + 1 := by
  rcases m with _ | k
  · exact absurd h.within h.not_within_zero
  · exact ⟨k, rfl⟩

theorem cases (h : x.Mirror m s s') : (∃ l l', x.Inside s s' l l') ∨ x.AtEnd s s' := h.track.cases

end Mirror

theorem Inside.past (hi : x.Inside s s' l l') (h : x.Mirror m s s') :
    x.Mirror m (s.past l s.after) (s'.past l' s'.after) := by
  refine h.next (n := 1) ?_ ⟨hi.track, fun _ => hi.moved.stop⟩
  exact Takes.advances ⟨l, hi.ahead, rfl, hi.valid, rfl⟩

/-! ### Readings that agree -/

variable {α β γ δ : Type} {R : α → β → Prop} {S : γ → δ → Prop}

/-- What the one reader gives within the excerpt, the other one gives as well. -/
def Agree (x : Excerpt) (r : Reader α) (r' : Reader β) (s s' : ReaderState) (R : α → β → Prop) :
    Prop :=
  ∀ a t, r.run s = .ok (a, t) → t.Advances 0 x.finish →
    ∃ b t', r'.run s' = .ok (b, t') ∧ R a b ∧ x.Aligned t t'

open Reader

theorem Agree.mono {r : Reader α} {r' : Reader β} {R' : α → β → Prop} (h : x.Agree r r' s s' R)
    (hR : ∀ a b, R a b → R' a b) : x.Agree r r' s s' R' := by
  intro a t hrun ht
  obtain ⟨b, t', hrun', hab, htt⟩ := h a t hrun ht
  exact ⟨b, t', hrun', hR a b hab, htt⟩

theorem agree_pure {a : α} {b : β} (h : x.Aligned s s') (hab : R a b) :
    x.Agree (pure a) (pure b) s s' R := by
  rintro _ _ ⟨⟩ _
  exact ⟨b, s', rfl, hab, h⟩

/-- Readers that read nothing. -/
theorem agree_of_run {r : Reader α} {r' : Reader β} {a : α} {b : β} (hr : r.run s = .ok (a, s))
    (hr' : r'.run s' = .ok (b, s')) (h : x.Aligned s s') (hab : R a b) : x.Agree r r' s s' R := by
  intro a' t hrun _
  cases hr.symm.trans hrun
  exact ⟨b, s', hr', hab, h⟩

theorem agree_failAt {o : Nat} {r' : Reader β} : x.Agree (failAt o : Reader α) r' s s' R := by
  rintro _ _ ⟨⟩

theorem agree_fail {r' : Reader β} : x.Agree (fail : Reader α) r' s s' R := by
  rintro _ _ ⟨⟩

/-- A reader that gives nothing agrees with every other one. -/
theorem agree_of_false {r : Reader α} {r' : Reader β} (h : r.Ensures s fun _ _ => False) :
    x.Agree r r' s s' R :=
  fun a t hrun _ => (h a t hrun).elim

theorem agree_fail_bind {f : α → Reader γ} {r' : Reader δ} : x.Agree (fail >>= f) r' s s' S := by
  rintro _ _ ⟨⟩

theorem agree_failAt_bind {o : Nat} {f : α → Reader γ} {r' : Reader δ} :
    x.Agree (failAt o >>= f) r' s s' S := by
  rintro _ _ ⟨⟩

theorem agree_bind_of {r : Reader α} {r' : Reader β} {f : α → Reader γ} {f' : β → Reader δ}
    {Q : α → ReaderState → Prop} (h : x.Mirror m s s') (hQ : r.Ensures s Q)
    (hr : x.Agree r r' s s' R)
    (hf : ∀ a b t t', R a b → x.Mirror m t t' → Q a t → x.Agree (f a) (f' b) t t' S) :
    x.Agree (r >>= f) (r' >>= f') s s' S := by
  intro c u hrun hu
  simp only [bind] at hrun ⊢
  rcases hra : r.run s with o | ⟨a, t⟩
  · rw [hra] at hrun
    cases hrun
  · rw [hra] at hrun
    have hst := ensures_advances r s a t hra
    have htu := ensures_advances (f a) t c u hrun
    obtain ⟨b, t', hrb, hab, htt⟩ := hr a t hra (htu.trans hu)
    rw [hrb]
    exact hf a b t t' hab (h.next hst htt) (hQ a t hra) c u hrun hu

theorem agree_bind {r : Reader α} {r' : Reader β} {f : α → Reader γ} {f' : β → Reader δ}
    (h : x.Mirror m s s') (hr : x.Agree r r' s s' R)
    (hf : ∀ a b t t', R a b → x.Mirror m t t' → s.Advances 0 t → x.Agree (f a) (f' b) t t' S) :
    x.Agree (r >>= f) (r' >>= f') s s' S :=
  agree_bind_of h (ensures_advances r s) hr hf

theorem agree_ite {c : Prop} [Decidable c] {r q : Reader α} {r' q' : Reader β}
    (hr : c → x.Agree r r' s s' R) (hq : ¬ c → x.Agree q q' s s' R) :
    x.Agree (if c then r else q) (if c then r' else q') s s' R := by
  by_cases hc : c
  · rw [if_pos hc, if_pos hc]
    exact hr hc
  · rw [if_neg hc, if_neg hc]
    exact hq hc

/-- A reader that takes a token reads nothing at the end of the excerpt. -/
theorem AtEnd.agree {r : Reader α} {r' : Reader β} (h : x.AtEnd s s')
    (hr : r.Ensures s fun _ t => s.Advances 1 t) : x.Agree r r' s s' R :=
  fun a t hrun ht => absurd ht (h.not_advances (hr a t hrun))

/-- A reader that takes a token begins within the excerpt. -/
theorem agree_of_inside {r : Reader α} {r' : Reader β} (h : x.Mirror m s s')
    (hr : r.Ensures s fun _ t => s.Advances 1 t)
    (hin : ∀ l l', x.Inside s s' l l' → x.Agree r r' s s' R) : x.Agree r r' s s' R := by
  rcases h.cases with ⟨l, l', hi⟩ | hend
  · exact hin l l' hi
  · exact hend.agree hr

/-! ### Steps -/

theorem Mirror.tokenAhead_iff (h : x.Mirror m s s') (hk : k.closesItem = false) :
    s'.tokenAhead = some k ↔ s.tokenAhead = some k := by
  rcases h.cases with ⟨l, l', hi⟩ | hend
  · rw [hi.tokenAhead, hi.tokenAhead']
  · obtain ⟨c, hc, hclose, hnone⟩ := hend.tokenAhead
    rw [hc, hnone]
    refine ⟨nofun, fun heq => ?_⟩
    rw [Option.some.inj heq, hk] at hclose
    cases hclose

/-- A token that no item ends before is ahead within the excerpt only. -/
theorem Mirror.inside (h : x.Mirror m s s') (hk : s.tokenAhead = some k)
    (hclose : k.closesItem = false) : ∃ l l', x.Inside s s' l l' := by
  rcases h.cases with hi | hend
  · exact hi
  · obtain ⟨c, hc, hc', -⟩ := hend.tokenAhead
    rw [Option.some.inj (hk.symm.trans hc), hc'] at hclose
    cases hclose

theorem agree_peek {f f' : Option Token → Reader γ} {S : γ → γ → Prop} (h : x.Mirror m s s')
    (hin : ∀ k l l', x.Inside s s' l l' → s.tokenAhead = some k →
      x.Agree (f (some k)) (f' (some k)) s s' S)
    (hend : ∀ k, k = .rightParen ∨ k = .comma → x.AtEnd s s' →
      x.Agree (f (some k)) (f' none) s s' S) :
    x.Agree (peek >>= f) (peek >>= f') s s' S := by
  show x.Agree (f s.tokenAhead) (f' s'.tokenAhead) s s' S
  rcases h.cases with ⟨l, l', hi⟩ | hend'
  · rw [hi.tokenAhead, hi.tokenAhead']
    exact hin _ l l' hi hi.tokenAhead
  · obtain ⟨k, hk, hclose, hnone⟩ := hend'.tokenAhead
    rw [hk, hnone]
    exact hend k (Token.closesItem_iff.1 hclose) hend'

theorem agree_peek_inside {f : Option Token → Reader γ} {f' : Option Token → Reader δ}
    (hi : x.Inside s s' l l')
    (hf : ∀ k, s.tokenAhead = some k → x.Agree (f (some k)) (f' (some k)) s s' S) :
    x.Agree (peek >>= f) (peek >>= f') s s' S := by
  show x.Agree (f s.tokenAhead) (f' s'.tokenAhead) s s' S
  rw [hi.tokenAhead, hi.tokenAhead']
  exact hf _ hi.tokenAhead

/-- A token is taken in both readings. -/
theorem agree_takes (h : x.Mirror m s s') (hk : s.tokenAhead = some k) :
    x.Agree advance advance s s' fun _ _ => True := by
  refine agree_of_inside h ((ensures_advance hk).2 fun _ hu => hu.advances) fun l l' hi => ?_
  intro a t hrun ht
  have hvalid' : l'.token ≠ .invalid := hi.moved.token ▸ hi.valid
  refine ⟨(), s'.past l' s'.after, ?_, trivial, ?_⟩
  · show (s'.advance).map ((), ·) = _
    simp [ReaderState.advance, hi.ahead', hvalid', Except.map]
  · obtain rfl : s.past l s.after = t := by
      have hrun : (s.advance).map ((), ·) = .ok (a, t) := hrun
      simpa [ReaderState.advance, hi.ahead, hi.valid, Except.map] using hrun
    exact (hi.past h).toAligned

theorem agree_advance {f : Unit → Reader γ} {f' : Unit → Reader δ} (h : x.Mirror m s s')
    (hk : s.tokenAhead = some k)
    (hf : ∀ t t', s.Takes k t → x.Mirror m t t' → x.Agree (f ()) (f' ()) t t' S) :
    x.Agree (advance >>= f) (advance >>= f') s s' S :=
  agree_bind_of h ((ensures_advance hk).2 fun _ hu => hu) (agree_takes h hk)
    fun _ _ t t' _ ht hst => hf t t' hst ht

theorem agree_expected (h : x.Mirror m s s') :
    x.Agree (expect k) (expect k) s s' fun _ _ => True := by
  refine agree_of_inside h (ensures_expect.2 fun _ hu => hu.advances) fun l l' hi => ?_
  show x.Agree (if s.tokenAhead == some k then advance else fail)
    (if s'.tokenAhead == some k then advance else fail) s s' _
  rw [hi.tokenAhead, hi.tokenAhead']
  exact agree_ite (fun _ => agree_takes h hi.tokenAhead) fun _ => agree_fail

theorem agree_expect {f : Unit → Reader γ} {f' : Unit → Reader δ} (h : x.Mirror m s s')
    (hf : ∀ t t', s.Takes k t → x.Mirror m t t' → x.Agree (f ()) (f' ()) t t' S) :
    x.Agree (expect k >>= f) (expect k >>= f') s s' S :=
  agree_bind_of h (ensures_expect.2 fun _ hu => hu) (agree_expected h)
    fun _ _ t t' _ ht hst => hf t t' hst ht

/-- A token that is not ahead in the script is not ahead in the excerpt by itself. -/
theorem Mirror.tokenAhead_ne (h : x.Mirror m s s') (hk : s.tokenAhead ≠ some k) :
    s'.tokenAhead ≠ some k := by
  rcases h.cases with ⟨l, l', hi⟩ | hend
  · rwa [hi.tokenAhead', ← hi.tokenAhead]
  · obtain ⟨c, -, -, hnone⟩ := hend.tokenAhead
    rw [hnone]
    nofun

theorem agree_eat {f : Bool → Reader γ} {f' : Bool → Reader δ} (h : x.Mirror m s s')
    (hyes : ∀ t t', s.Takes k t → x.Mirror m t t' → x.Agree (f true) (f' true) t t' S)
    (hno : s.tokenAhead ≠ some k → x.Agree (f false) (f' false) s s' S) :
    x.Agree (eat k >>= f) (eat k >>= f') s s' S := by
  show x.Agree ((if s.tokenAhead == some k then advance >>= fun _ => pure true else pure false) >>= f)
    ((if s'.tokenAhead == some k then advance >>= fun _ => pure true else pure false) >>= f') s s' S
  by_cases hk : s.tokenAhead = some k
  · have hQ : (do advance; pure true : Reader Bool).Ensures s fun b t => b = true ∧ s.Takes k t := by
      simp [ensures_advance hk]
    rw [hk, beq_self_eq_true, if_pos rfl]
    refine agree_of_inside h ?_ fun l l' hi => ?_
    · exact ensures_bind.2 (hQ.mono fun _ t ht => (ensures_advances _ t).mono fun _ _ hu =>
        (ht.2.advances.trans hu))
    rw [hi.tokenAhead', ← hi.tokenAhead, hk, beq_self_eq_true, if_pos rfl]
    refine agree_bind_of h hQ (R := Eq)
      (agree_advance h hk fun t t' _ ht => agree_pure ht.toAligned rfl) ?_
    rintro _ _ t t' rfl ht ⟨rfl, hst⟩
    exact hyes t t' hst ht
  · have hk' := h.tokenAhead_ne hk
    rw [beq_eq_false_iff_ne.2 hk, beq_eq_false_iff_ne.2 hk', if_neg nofun]
    exact hno hk

theorem agree_ifEat {r q : Reader γ} {r' q' : Reader δ} (h : x.Mirror m s s')
    (hyes : ∀ t t', s.Takes k t → x.Mirror m t t' → x.Agree r r' t t' S)
    (hno : s.tokenAhead ≠ some k → x.Agree q q' s s' S) :
    x.Agree (do if ← eat k then r else q) (do if ← eat k then r' else q') s s' S :=
  agree_eat h hyes hno

/-- A token that no item ends before is ahead in both readings or in none. -/
theorem agree_isAhead {f : Bool → Reader γ} {f' : Bool → Reader δ} (h : x.Mirror m s s')
    (hk : k.closesItem = false)
    (hf : ∀ b, (b = true ↔ s.tokenAhead = some k) → x.Agree (f b) (f' b) s s' S) :
    x.Agree (isAhead k >>= f) (isAhead k >>= f') s s' S := by
  show x.Agree (f (s.tokenAhead == some k)) (f' (s'.tokenAhead == some k)) s s' S
  have heq : (s'.tokenAhead == some k) = (s.tokenAhead == some k) :=
    Bool.eq_iff_iff.2 (by simpa using h.tokenAhead_iff hk)
  rw [heq]
  exact hf _ beq_iff_eq

theorem agree_isAhead_inside {f : Bool → Reader γ} {f' : Bool → Reader δ}
    (hi : x.Inside s s' l l')
    (hf : ∀ b, (b = true ↔ s.tokenAhead = some k) → x.Agree (f b) (f' b) s s' S) :
    x.Agree (isAhead k >>= f) (isAhead k >>= f') s s' S := by
  show x.Agree (f (s.tokenAhead == some k)) (f' (s'.tokenAhead == some k)) s s' S
  rw [hi.tokenAhead', ← hi.tokenAhead]
  exact hf _ beq_iff_eq

/-- A token is ahead in the script where the excerpt goes on, if it is taken then. -/
theorem agree_ifAhead {r q : Reader γ} {r' q' : Reader δ} (h : x.Mirror m s s')
    (hr : s.tokenAhead = some k → r.Ensures s fun _ t => s.Advances 1 t)
    (hyes : ∀ l l', x.Inside s s' l l' → s.tokenAhead = some k → x.Agree r r' s s' S)
    (hno : s.tokenAhead ≠ some k → x.Agree q q' s s' S) :
    x.Agree (do if ← isAhead k then r else q) (do if ← isAhead k then r' else q') s s' S := by
  show x.Agree (if s.tokenAhead == some k then r else q)
    (if s'.tokenAhead == some k then r' else q') s s' S
  by_cases hk : s.tokenAhead = some k
  · rw [hk, beq_self_eq_true, if_pos rfl]
    refine agree_of_inside h (hr hk) fun l l' hi => ?_
    rw [hi.tokenAhead', ← hi.tokenAhead, hk, beq_self_eq_true, if_pos rfl]
    exact hyes l l' hi hk
  · rw [beq_eq_false_iff_ne.2 hk, beq_eq_false_iff_ne.2 (h.tokenAhead_ne hk)]
    exact hno hk

theorem agree_position {f f' : Nat → Reader γ} {S : γ → γ → Prop} (hi : x.Inside s s' l l')
    (hf : x.Agree (f (s'.position + x.shift)) (f' s'.position) s s' S) :
    x.Agree (position >>= f) (position >>= f') s s' S := by
  show x.Agree (f s.position) (f' s'.position) s s' S
  rw [hi.position]
  exact hf

/-- An offset that decides nothing. -/
theorem agree_offset {f : Nat → Reader γ} {f' : Nat → Reader δ}
    (hf : ∀ o o', x.Agree (f o) (f' o') s s' S) :
    x.Agree (position >>= f) (position >>= f') s s' S := hf _ _

theorem agree_lastStop {f : Nat → Reader γ} {f' : Nat → Reader δ}
    (hf : x.Agree (f s.stop) (f' s'.stop) s s' S) :
    x.Agree (lastStop >>= f) (lastStop >>= f') s s' S := hf

theorem agree_newlineAhead {f : Bool → Reader γ} {f' : Bool → Reader δ} (hi : x.Inside s s' l l')
    (hb : x.Begun s) (hf : ∀ b, x.Agree (f b) (f' b) s s' S) :
    x.Agree (newlineAhead >>= f) (newlineAhead >>= f') s s' S := by
  show x.Agree (f (s.ahead.any (·.newline))) (f' (s'.ahead.any (·.newline))) s s' S
  rw [hi.ahead, hi.ahead', Option.any_some, Option.any_some, hi.newline hb]
  exact hf _

/-- Where the excerpt ends by itself, no line has to end. -/
theorem agree_newlineAhead_left {f : Bool → Reader γ} {r' : Reader δ}
    (hf : ∀ b, x.Agree (f b) r' s s' S) : x.Agree (newlineAhead >>= f) r' s s' S := hf _

/-- the tokens behind the tokens ahead: the same, or a token that ends an item and none -/
inductive Seconds (x : Excerpt) : Option Lexeme → Option Lexeme → Prop
  | token {l l' : Lexeme} : l.Moved x.shift l' → l.newline = l'.newline →
    Seconds x (some l) (some l')
  | finish {l : Lexeme} : l.token.closesItem = true → Seconds x (some l) none

theorem Seconds.any {o o' : Option Lexeme} (h : x.Seconds o o') {p : Token → Bool → Bool}
    (hp : ∀ k b, k.closesItem = true → p k b = false) :
    (o.any fun l => p l.token l.newline) = o'.any fun l => p l.token l.newline := by
  cases h with
  | token hmoved hnewline => simp [hmoved.token, hnewline]
  | finish hclose => simp [hp _ _ hclose]

theorem Seconds.contains {o o' : Option Lexeme} (h : x.Seconds o o') {ks : List (Option Token)}
    (hnone : none ∉ ks) (hclose : ∀ k, k.closesItem = true → some k ∉ ks) :
    ks.contains (o.map (·.token)) = ks.contains (o'.map (·.token)) := by
  cases h with
  | token hmoved _ => rw [Option.map_some, Option.map_some, hmoved.token]
  | finish hk =>
    rw [Option.map_some, Option.map_none, List.contains_eq_mem, List.contains_eq_mem,
      decide_eq_false (hclose _ hk), decide_eq_false hnone]

theorem Inside.seconds (hi : x.Inside s s' l l') (h : x.Mirror m s s') :
    x.Seconds s.after.lookAhead.1 s'.after.lookAhead.1 := by
  have hpast := hi.past h
  have hb : x.Begun (s.past l s.after) := h.begun (Takes.advances ⟨l, hi.ahead, rfl, hi.valid, rfl⟩)
  have hahead : (s.past l s.after).ahead = s.after.lookAhead.1 := rfl
  have hahead' : (s'.past l' s'.after).ahead = s'.after.lookAhead.1 := rfl
  rcases hpast.cases with ⟨k, k', hk⟩ | hend
  · rw [← hahead, ← hahead', hk.ahead, hk.ahead']
    exact .token hk.moved (hk.newline hb)
  · obtain ⟨k, hk, hclose, -⟩ := hend.tokenAhead
    obtain ⟨c, hc, rfl⟩ := Option.map_eq_some_iff.1 hk
    rw [← hahead, ← hahead', hc, hend.ahead']
    exact .finish hclose

theorem agree_peekSecond {f f' : Option Lexeme → Reader γ} {S : γ → γ → Prop}
    (h : x.Mirror m s s') (hi : x.Inside s s' l l')
    (hf : ∀ o o', x.Seconds o o' → s.after.lookAhead.1 = o → x.Agree (f o) (f' o') s s' S) :
    x.Agree (peekSecond >>= f) (peekSecond >>= f') s s' S :=
  hf _ _ (hi.seconds h) rfl

/-- No regular expression is read in the excerpt. -/
theorem agree_regex {f : Unit → Reader γ} {r' : Reader δ} : x.Agree (regex >>= f) r' s s' S := by
  intro c u hrun hu
  exfalso
  simp only [bind] at hrun
  rcases hra : regex.run s with o | ⟨a, t⟩
  · rw [hra] at hrun
    cases hrun
  · rw [hra] at hrun
    have hread : ∃ l ∈ t.taken, l.token = .regex := by
      simp only [regex] at hra
      split at hra
      · rename_i l c hahead
        cases hra
        exact ⟨l, List.mem_cons_self, token_regexAhead hahead⟩
      · cases hra
    obtain ⟨l, hl, hregex⟩ := hread
    obtain ⟨ls, hls⟩ := (f a).forward hrun
    obtain ⟨ms, hms, -⟩ := hu
    refine x.plain l ?_ hregex
    rw [taken_of_reads (hls.append hms)]
    exact List.mem_append_right _ hl

/-! ### Names -/

theorem ensures_anyWord {Q : String → ReaderState → Prop} :
    anyWord.Ensures s Q ↔ ∀ w t, s.Takes (.word w) t → Q w t := by
  rw [anyWord, ensures_bind, ensures_peek]
  split
  · rename_i w hw
    simp only [ensures_bind, ensures_advance hw, ensures_pure]
    refine ⟨fun h w' t ht => ?_, fun h t ht => h w t ht⟩
    obtain rfl : w = w' := by simpa using hw.symm.trans ht.tokenAhead_eq
    exact h t ht
  · rename_i hne
    simp only [ensures_fail, true_iff]
    exact fun w t ht => absurd ht.tokenAhead_eq (hne w)

theorem agree_anyWord (h : x.Mirror m s s') : x.Agree anyWord anyWord s s' Eq := by
  refine agree_peek h (fun k l l' hi hk => ?_) ?_
  · split
    · exact agree_advance h hk fun t t' _ ht => agree_pure ht.toAligned rfl
    · exact agree_fail
  · rintro _ (rfl | rfl) _ <;> exact agree_fail

theorem agree_privateName (h : x.Mirror m s s') : x.Agree privateName privateName s s' Eq := by
  refine agree_expect h fun t t' hst ht => agree_lastStop ?_
  have hstop := ht.stop (h.begun hst.advances)
  have hadv : (do if (← position) == t.stop then anyWord else fail : Reader String).Ensures t
      fun _ u => t.Advances 1 u := by
    simp only [ensures_bind, ensures_position, ensures_ite, ensures_fail, implies_true, and_true,
      ensures_anyWord]
    exact fun _ w u hu => hu.advances
  refine agree_of_inside ht hadv fun l l' hi => agree_position hi ?_
  have heq : (t'.position + x.shift == t.stop) = (t'.position == t'.stop) := by
    rw [hstop]
    simp
  rw [heq]
  exact agree_ite (fun _ => agree_anyWord ht) fun _ => agree_fail

theorem agree_variableName (h : x.Mirror m s s') (scope : Scope) :
    x.Agree (Grammar.variableName scope) (Grammar.variableName scope) s s' Eq := by
  refine agree_peek h (fun k l l' hi hk => ?_) ?_
  · split
    · refine agree_ite (fun _ => ?_) fun _ => agree_fail
      exact agree_advance h hk fun t t' _ ht => agree_pure ht.toAligned rfl
    · exact agree_fail
  · rintro _ (rfl | rfl) _ <;> exact agree_fail

theorem agree_semicolon (h : x.Mirror m s s') (hb : x.Begun s) :
    x.Agree semicolon semicolon s s' fun _ _ => True := by
  have hdone : x.Agree (pure ()) (pure ()) s s' fun _ _ => True := agree_pure h.toAligned trivial
  refine agree_eat h (fun t t' _ ht => agree_pure ht.toAligned trivial) fun _ => ?_
  refine agree_peek h (fun k l l' hi hk => ?_) ?_
  · split
    · exact hdone
    · exact hdone
    · exact agree_newlineAhead hi hb fun b => agree_ite (fun _ => hdone) fun _ => agree_fail
  · -- the excerpt ends, and by itself nothing stands behind it
    have hnewline : x.Agree (newlineAhead >>= fun b => if b then pure () else fail) (pure ()) s s'
        fun _ _ => True := by
      refine agree_newlineAhead_left fun b => ?_
      cases b
      · exact agree_fail
      · exact hdone
    rintro _ (rfl | rfl) _ <;> exact hnewline

/-! ### Lists -/

theorem listUpTo_advances (close : Token) (item : Reader α) (n : Nat) (s : ReaderState) :
    (listUpTo close item n).Ensures s fun _ t => s.Advances 1 t := by
  cases n with
  | zero => exact ensures_fail
  | succ n =>
    rw [listUpTo, ensures_ifEat]
    refine ⟨fun u hu => ensures_pure.2 hu.advances, fun _ => ensures_bind.2 ?_⟩
    refine (ensures_advances item s).mono fun a u hu => ?_
    rw [ensures_ifEat]
    simp only [ensures_bind, ensures_expect, ensures_pure]
    refine ⟨fun v hv => ?_, fun _ v hv => (hu.trans hv.advances).mono (by omega)⟩
    exact (ensures_advances _ v).mono fun r t ht => ((hu.trans hv.advances).trans ht).mono (by omega)

theorem agree_listUpTo {item : Reader α} {item' : Reader β} {close : Token}
    (hitem : ∀ s s' l l', x.Mirror m s s' → x.Inside s s' l l' → x.Agree item item' s s' R)
    (h : x.Mirror m s s') {n' : Nat} (hn : x.Within n' s) :
    x.Agree (listUpTo close item n) (listUpTo close item' n') s s'
      fun p q => List.Forall₂ R p.1 q.1 ∧ p.2 = q.2 := by
  induction n' generalizing n s s' with
  | zero => exact absurd hn h.not_within_zero
  | succ n' ih =>
    refine agree_of_inside h (listUpTo_advances close item n s) fun l l' hi => ?_
    rcases n with _ | n
    · exact agree_fail
    rw [listUpTo, listUpTo]
    refine agree_eat h (fun t t' _ ht => agree_pure ht.toAligned ⟨.nil, rfl⟩) fun _ => ?_
    refine agree_bind h (hitem s s' l l' h hi) fun a b t t' hab ht hst => ?_
    refine agree_eat ht (fun u u' htu hu => ?_) fun _ => ?_
    · have hnu : x.Within n' u := hn.less ((hst.trans htu.advances).mono le_rfl)
      refine agree_bind hu (ih hu hnu) ?_
      rintro ⟨as, trailing⟩ ⟨bs, trailing'⟩ v v' ⟨habs, rfl⟩ hv _
      refine agree_pure hv.toAligned ⟨.cons hab habs, ?_⟩
      cases habs <;> rfl
    · exact agree_expect ht fun u u' _ hu => agree_pure hu.toAligned ⟨.cons hab .nil, rfl⟩

/-- items that come out the same -/
theorem agree_listUpTo_eq {item item' : Reader α} {close : Token}
    (hitem : ∀ s s' l l', x.Mirror m s s' → x.Inside s s' l l' → x.Agree item item' s s' Eq)
    (h : x.Mirror m s s') {n' : Nat} (hn : x.Within n' s) :
    x.Agree (listUpTo close item n) (listUpTo close item' n') s s' Eq := by
  refine (agree_listUpTo hitem h hn).mono ?_
  rintro ⟨as, trailing⟩ ⟨bs, _⟩ ⟨hab, rfl⟩
  obtain rfl : as = bs := List.forall₂_eq_eq_eq ▸ hab
  rfl

theorem agree_mapM {f : α → Reader γ} {f' : β → Reader δ} {as : List α} {bs : List β}
    (h : x.Mirror m s s') (hab : List.Forall₂ R as bs)
    (hf : ∀ a b, R a b → ∀ t t', x.Mirror m t t' → x.Agree (f a) (f' b) t t' S) :
    x.Agree (as.mapM f) (bs.mapM f') s s' (List.Forall₂ S) := by
  suffices hloop : ∀ acc acc', List.Forall₂ S acc acc' →
      x.Agree (List.mapM.loop f as acc) (List.mapM.loop f' bs acc') s s' (List.Forall₂ S) from
    hloop [] [] .nil
  induction hab generalizing s s' with
  | nil =>
    intro acc acc' hacc
    exact agree_pure h.toAligned (List.rel_reverse hacc)
  | cons hab _ ih =>
    intro acc acc' hacc
    refine agree_bind h (hf _ _ hab s s' h) fun c d t t' hcd ht _ => ?_
    exact ih ht _ _ (.cons hcd hacc)

end Excerpt

end PageQuery.Script
