import RollCall.Session

/-!
# Waits and sessions over any link

Two facts about links carry over to the waits and sessions that use them.

A link mirrors another if its world can be viewed as a world of the other, its handles stand for
handles of the other, and the two do the same under this view. Then waits and sessions do the same
over both: what is seen over the one is what is seen over the other.

And if whatever a link does takes a world to one that stands in some relation to it, then so does
whatever a wait or a session does.
-/

namespace RollCall

variable {σ σ' η η' : Type}

/-! ## One link in the place of another -/

/-- What `L` does is, under a view of its world and its handles, what `L'` does. -/
structure Link.Mirrors (L : Link σ η) (L' : Link σ' η') (view : σ → σ') (stands : η → η') :
    Prop where
  poll : ∀ h s, L'.poll (stands h) (view s) = ((L.poll h s).1, view (L.poll h s).2)
  release : ∀ h s, L'.release (stands h) (view s) = view (L.release h s)
  tell : ∀ e s, L'.tell e (view s) = view (L.tell e s)

variable {L : Link σ η} {L' : Link σ' η'} {view : σ → σ'} {stands : η → η'}

namespace Wait

variable (hL : L.Mirrors L' view stands) (cancelled : σ' → Bool) (now : Instant) (w : Wait) (s : σ)
include hL

theorem receive_mirrors (visible : NameSet) :
    let out := w.receive L (fun s => cancelled (view s)) visible now s
    w.receive L' cancelled visible now (view s) = (out.1, view out.2) := by
  simp only [receive]
  split
  · simp only [hL.tell]
  · rfl

theorem poll_mirrors (h : η) :
    let out := w.poll L (fun s => cancelled (view s)) h now s
    w.poll L' cancelled (stands h) now (view s) = (out.1, view out.2) := by
  simp only [poll, hL.poll]
  split
  · exact receive_mirrors hL cancelled now w _ _
  · rfl

theorem advance_mirrors (h : η) :
    let out := w.advance L (fun s => cancelled (view s)) h now s
    w.advance L' cancelled (stands h) now (view s) = (out.1, view out.2) := by
  simp only [advance]
  split
  · exact poll_mirrors hL cancelled now w s h
  · split
    · exact receive_mirrors hL cancelled now w s _
    · rfl
  · split
    · rfl
    · split
      · exact poll_mirrors hL cancelled now w s h
      · rfl
  · rfl

end Wait

namespace Session

/-- The session with a handle that stands for another. -/
def map (f : η → η') (x : Session η) : Session η' := { x with handle := x.handle.map f }

@[simp] theorem map_id (x : Session η) : x.map id = x := by simp [map]

theorem map_injective {f : η → η'} (hf : Function.Injective f) : Function.Injective (map f) := by
  rintro ⟨_, _, _, _, handle, _⟩ ⟨_, _, _, _, handle', _⟩ hsame
  simp only [map, mk.injEq] at hsame
  obtain ⟨rfl, rfl, rfl, rfl, hhandle, rfl⟩ := hsame
  rw [Option.map_injective hf hhandle]

theorem isClosed_map (f : η → η') (x : Session η) : (x.map f).isClosed = x.isClosed := by
  simp [isClosed, map]

variable (hL : L.Mirrors L' view stands) (x : Session η) (s : σ)
include hL

theorem begin_mirrors (now : Instant) :
    (x.map stands).begin L' now (view s) =
      (x.begin L now s).map fun (w, s) => (w, view s) := by
  simp only [begin, isClosed_map]
  split
  · rfl
  · simp only [Except.map]
    rw [← hL.tell]
    rfl

theorem complete_mirrors (outcome : Outcome) (visible : NameSet) :
    let out := x.complete L outcome visible s
    (x.map stands).complete L' outcome visible (view s) = (out.1.map stands, view out.2) := by
  simp only [complete, ← hL.tell]
  rfl

theorem settle_mirrors (w : Wait) :
    let out := x.settle L w s
    (x.map stands).settle L' w (view s) = (out.1, out.2.1.map stands, view out.2.2) := by
  simp only [settle]
  split
  · rw [complete_mirrors hL]
  · rfl

theorem turn_mirrors (cancelled : σ' → Bool) (h : η) (now : Instant) (w : Wait) :
    let out := x.turn L (fun s => cancelled (view s)) h now w s
    (x.map stands).turn L' cancelled (stands h) now w (view s) =
      (out.1, out.2.1.map stands, view out.2.2) := by
  simp only [turn, Wait.advance_mirrors hL]
  exact settle_mirrors hL x _ _

theorem close_mirrors :
    (x.map stands).close L' (view s) =
      (x.close L s).map fun (x, s) => (x.map stands, view s) := by
  simp only [close, map]
  cases x.handle with
  | none => rfl
  | some h =>
    simp only [Option.map_some, hL.release, hL.tell]
    rfl

theorem drop_mirrors : (x.map stands).drop L' (view s) = view (x.drop L s) := by
  simp only [drop, map]
  cases x.handle with
  | none => rfl
  | some h => simp only [Option.map_some, hL.release, hL.tell]

omit hL in
/-- To connect does the same if the two transports register alike. -/
theorem connect_mirrors
    {T : Transport σ η} {T' : Transport σ' η'} (hT : T.toLink.Mirrors T'.toLink view stands)
    {identity : Identity}
    (hregister : T'.register identity (view s) =
      (T.register identity s).map fun (h, s) => (stands h, view s))
    (expected : List String) (settings : Settings) :
    connect T' expected settings identity (view s) =
      (connect T expected settings identity s).map fun (x, s) => (x.map stands, view s) := by
  simp only [connect]
  cases settings.durations with
  | error e => rfl
  | ok spans =>
    simp only [hregister]
    cases T.register identity s with
    | error reason => rfl
    | ok registered =>
      simp only [Except.map, hT.tell]
      rfl

end Session

/-! ## What a link can do to its world -/

/-- Whatever a link does, short of a release, takes a world to one that stands in this relation to
it. -/
structure Link.Within (L : Link σ η) (R : σ → σ → Prop) : Prop where
  refl : ∀ s, R s s
  trans : ∀ {s t u}, R s t → R t u → R s u
  poll : ∀ h s, R s (L.poll h s).2
  tell : ∀ e s, R s (L.tell e s)

variable {R : σ → σ → Prop} (hL : L.Within R)
include hL

namespace Wait

variable (cancelled : σ → Bool) (now : Instant) (w : Wait) (s : σ)

theorem receive_within (visible : NameSet) : R s (w.receive L cancelled visible now s).2 := by
  simp only [receive]
  split
  · exact hL.tell _ s
  · exact hL.refl s

theorem poll_within (h : η) : R s (w.poll L cancelled h now s).2 := by
  simp only [poll]
  split
  · exact hL.trans (hL.poll h s) (receive_within hL cancelled now w _ _)
  · exact hL.poll h s

theorem advance_within (h : η) : R s (w.advance L cancelled h now s).2 := by
  simp only [advance]
  split
  · exact poll_within hL cancelled now w s h
  · split
    · exact receive_within hL cancelled now w s _
    · exact hL.refl s
  · split
    · exact hL.refl s
    · split
      · exact poll_within hL cancelled now w s h
      · exact hL.refl s
  · exact hL.refl s

end Wait

namespace Session

variable (x : Session η) (s : σ)

theorem begin_within {now : Instant} {w : Wait} {s' : σ} (hbegin : x.begin L now s = .ok (w, s')) :
    R s s' := by
  obtain ⟨-, -, rfl⟩ := begin_eq_ok_iff.mp hbegin
  exact hL.tell _ s

theorem turn_within (cancelled : σ → Bool) (h : η) (now : Instant) (w : Wait) :
    R s (x.turn L cancelled h now w s).2.2 := by
  have hwithin := Wait.advance_within hL cancelled now w s h
  rcases hadvance : w.advance L cancelled h now s with ⟨w', s'⟩
  rw [hadvance] at hwithin
  rcases x.turn_cases hadvance with ⟨outcome, visible, -, hturn⟩ | ⟨-, hturn⟩
  · rw [hturn]
    exact hL.trans hwithin (hL.tell _ _)
  · rw [hturn]
    exact hwithin

theorem close_within
    (hrelease : ∀ h s, R s (L.release h s)) {x' : Session η} {s' : σ}
    (hclose : x.close L s = .ok (x', s')) : R s s' := by
  obtain ⟨handle, -, -, rfl⟩ := close_eq_ok_iff.mp hclose
  exact hL.trans (hrelease handle s) (hL.tell _ _)

theorem drop_within (hrelease : ∀ h s, R s (L.release h s)) : R s (x.drop L s) := by
  simp only [drop]
  split
  · exact hL.refl s
  · exact hL.trans (hL.tell _ s) (hrelease _ _)

end Session

/-! ## What a turn makes of a token -/

namespace Wait

variable {cancelled cancelled' : σ → Bool} {s : σ}
  (hsame : ∀ s', R s s' → cancelled s' = cancelled' s')
include hsame

theorem receive_congr (w : Wait) (visible : NameSet) (now : Instant) :
    w.receive L cancelled visible now s = w.receive L cancelled' visible now s := by
  simp only [receive]
  split
  · rw [hsame _ (hL.tell _ s)]
  · rfl

theorem poll_congr (w : Wait) (h : η) (now : Instant) :
    w.poll L cancelled h now s = w.poll L cancelled' h now s := by
  simp only [poll]
  split
  · exact receive_congr hL (fun s' hs' => hsame s' (hL.trans (hL.poll h s) hs')) w _ now
  · rfl

/-- A turn looks at a token in no worlds but those that it comes to. -/
theorem advance_congr (w : Wait) (h : η) (now : Instant) :
    w.advance L cancelled h now s = w.advance L cancelled' h now s := by
  simp only [advance]
  split
  · exact poll_congr hL hsame w h now
  · split
    · exact receive_congr hL hsame w _ now
    · rfl
  · rw [hsame s (hL.refl s)]
    split
    · rfl
    · split
      · exact poll_congr hL hsame w h now
      · rfl
  · rfl

end Wait

theorem Session.turn_congr
    {cancelled cancelled' : σ → Bool} {s : σ} (hsame : ∀ s', R s s' → cancelled s' = cancelled' s')
    (x : Session η) (w : Wait) (h : η) (now : Instant) :
    x.turn L cancelled h now w s = x.turn L cancelled' h now w s := by
  simp only [turn, Wait.advance_congr hL hsame]

omit hL

namespace Wait

variable (L : Link σ η) (w : Wait) (h : η) (now : Instant) (s : σ)

theorem receive_fired (visible : NameSet) :
    w.receive L (fun _ => true) visible now s = w.receive L (fun _ => false) visible now s ∨
      ∃ outcome shown,
        (w.receive L (fun _ => true) visible now s).1.phase = .ended outcome shown := by
  simp only [receive]
  split
  · rename_i shown _ hphase
    exact Or.inr ⟨.cancelled, shown, by simp [interrupt, hphase]⟩
  · exact Or.inl rfl

theorem poll_fired :
    w.poll L (fun _ => true) h now s = w.poll L (fun _ => false) h now s ∨
      ∃ outcome shown, (w.poll L (fun _ => true) h now s).1.phase = .ended outcome shown := by
  simp only [poll]
  split
  · exact receive_fired L w now _ _
  · exact Or.inl rfl

/-- A wait ends with the turn in which it notices that its token has fired. -/
theorem advance_fired :
    w.advance L (fun _ => true) h now s = w.advance L (fun _ => false) h now s ∨
      ∃ outcome shown, (w.advance L (fun _ => true) h now s).1.phase = .ended outcome shown := by
  simp only [advance]
  split
  · exact poll_fired L w h now s
  · split
    · exact receive_fired L w now s _
    · exact Or.inl rfl
  · rename_i shown _ hphase
    exact Or.inr ⟨.cancelled, shown, by simp [interrupt, hphase]⟩
  · exact Or.inl rfl

end Wait

/-- The wait of a session ends with the turn in which it notices that its token has fired. -/
theorem Session.turn_fired
    (L : Link σ η) (x : Session η) (w : Wait) (h : η) (now : Instant) (s : σ) :
    x.turn L (fun _ => true) h now w s = x.turn L (fun _ => false) h now w s ∨
      (x.turn L (fun _ => true) h now w s).1.wait? = none := by
  rcases w.advance_fired L h now s with hsame | ⟨outcome, shown, hended⟩
  · exact Or.inl (by simp only [turn, hsame])
  · refine Or.inr ?_
    simp only [turn, settle, hended]
    rfl

end RollCall
