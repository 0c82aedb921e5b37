import Mathlib.Data.List.Nodup
import QuickjsRuntime.Events.Passive

/-! # What `emit` consumes

A once-entry is removed twice: the loop drops the entry itself, and its wrapper calls `off`
with the function, which removes the first other registration of that function. Where that
one is persistent, it is lost. Where it is another once-registration, which would go anyway,
`off` still sends a `removeListener` notification, and this consumes the once-entries of the
observers.
-/

namespace Events

variable {Fn : Type} [DecidableEq Fn] {s : State Fn} {type : String} {n : Nat}

theorem WellFormed.nodup (h : WellFormed s) (q : String) (i : Nat) : (s.lists q i).Nodup := by
  rw [List.nodup_iff_count_le_one]
  intro e
  by_cases he : e ∈ s.lists q i
  · obtain ⟨htype, hlist⟩ := h.lists q i e he
    have hsingle := h.single e
    rw [live_of_list hlist, htype] at hsingle
    omega
  · rw [List.count_eq_zero.mpr he]
    exact Nat.zero_le 1

/-- No function is registered both persistently and once. -/
def Unmixed (entries : List (Entry Fn)) : Prop :=
  ∀ e ∈ entries, ∀ p ∈ entries, e.once = true → p.once = false → e.listener ≠ p.listener

/-- No function is registered once more than one time. -/
def Unrepeated (entries : List (Entry Fn)) : Prop :=
  ∀ e ∈ entries, ∀ e' ∈ entries, e.once = true → e'.once = true → e.listener = e'.listener → e = e'

/-- The calls of `off` in an `emit(type)` remove nothing but once-entries of the type, and
their notifications consume nothing. -/
def State.Separate (s : State Fn) (type : String) : Prop :=
  Unmixed (s.registrations type) ∧
    (type = "removeListener" ∨ Unrepeated (s.registrations type) ∨
      ∀ e ∈ s.registrations "removeListener", e.once = false)

/-- `emit(type)` has consumed the once-entries of the type and nothing else. -/
def State.Consumed (s s' : State Fn) (type : String) : Prop :=
  ∀ t, s'.registrations t =
    if t = type then (s.registrations t).filter (!·.once) else s.registrations t

omit [DecidableEq Fn] in
theorem registrations_eq (h : s.events type = some n) : s.registrations type = s.lists type n := by
  rw [State.registrations, h]

/-! ## Where the registrations are separate -/

/-- The persistent entries are all there, other arrays are untouched, and where no once-entry
repeats another there is no notification under way. -/
structure Course.Spares (s : State Fn) (type : String) (n : Nat) (c : Course Fn) : Prop where
  kept : (c.lists type n).filter (!·.once) = (s.lists type n).filter (!·.once)
  other : ∀ q i, ¬ (q = type ∧ i = n) → c.lists q i = s.lists q i
  calm : type ≠ "removeListener" → Unrepeated (s.lists type n) →
    ∀ f ∈ c.above, (∃ e, f = .listener e) ∨ ∃ e about, f = .wrapper e about

theorem consumeAt_of_ne (lists : String → Nat → List (Entry Fn)) {q t : String} {i m : Nat}
    (e : Entry Fn) (h : ¬ (t = q ∧ m = i)) : consumeAt lists q i e t m = lists t m :=
  if_neg h

omit [DecidableEq Fn] in
/-- A once-entry of a separate type has nothing but once-entries beside it. -/
theorem Unmixed.once_of_listener {entries : List (Entry Fn)} (h : Unmixed entries)
    {e x : Entry Fn} (he : e ∈ entries) (hx : x ∈ entries) (honce : e.once = true)
    (hlistener : x.listener = e.listener) : x.once = true := by
  by_contra hne
  exact h e he x hx honce (by simpa using hne) hlistener.symm

theorem not_repeats {entries : List (Entry Fn)} {e : Entry Fn} (hnodup : entries.Nodup)
    (hmixed : Unmixed entries) (hrepeated : Unrepeated entries) (he : e ∈ entries)
    (honce : e.once = true) {l : List (Entry Fn)} (hl : l.Sublist entries) :
    ¬ repeats e l = true := by
  intro h
  obtain ⟨x, hx, hlistener⟩ := List.any_eq_true.mp h
  have hlistener : x.listener = e.listener := by simpa using hlistener
  have hx' := hl.subset (List.mem_of_mem_erase hx)
  have hxonce := hmixed.once_of_listener he hx' honce hlistener
  obtain rfl := hrepeated e he x hx' honce hxonce hlistener.symm
  exact (hl.nodup hnodup).not_mem_erase hx

omit [DecidableEq Fn] in
theorem Course.Spares.pop {lists : String → Nat → List (Entry Fn)} {f : Frame Fn}
    {above : List (Frame Fn)} {rest : List (Entry Fn)}
    (h : (⟨lists, f :: above, rest⟩ : Course Fn).Spares s type n) :
    (⟨lists, above, rest⟩ : Course Fn).Spares s type n :=
  ⟨h.kept, h.other, fun hne hr => (List.forall_mem_cons.mp (h.calm hne hr)).2⟩

/-- A once-entry of the type takes only once-entries of the type along. -/
theorem Course.Spares.consumes {c : Course Fn} (h : c.Spares s type n)
    (hproper : c.Proper s type n) (hmixed : Unmixed (s.lists type n)) {e : Entry Fn}
    (he : e ∈ s.lists type n) (honce : e.once = true) :
    (consumeAt c.lists type n e type n).filter (!·.once) = (s.lists type n).filter (!·.once) ∧
      ∀ q i, ¬ (q = type ∧ i = n) → consumeAt c.lists type n e q i = s.lists q i := by
  refine ⟨?_, fun q i hne => (consumeAt_of_ne _ e hne).trans (h.other q i hne)⟩
  rw [consumeAt_self, filter_consume honce]
  · exact h.kept
  · intro x hx
    exact hmixed.once_of_listener he ((hproper.lists _ _).subset hx) honce

theorem Course.Spares.move (hwf : WellFormed s) (harray : s.events type = some n)
    (hseparate : s.Separate type) {c c' : Course Fn} (hproper : c.Proper s type n)
    (h : c.Spares s type n) (hmove : Course.Move s.events type n c c') : c'.Spares s type n := by
  rw [State.Separate, registrations_eq harray] at hseparate
  obtain ⟨hmixed, hcases⟩ := hseparate
  cases hmove with
  | leave e => exact h.pop
  | unheard about => exact h.pop
  | done q i about => exact h.pop
  | start about i harray =>
    refine ⟨h.kept, h.other, fun hne hr => ?_⟩
    simpa using (List.forall_mem_cons.mp (h.calm hne hr)).1
  | wrapper e about =>
    refine ⟨h.kept, h.other, fun hne hr => List.forall_mem_cons.mpr ⟨.inl ⟨e, rfl⟩, ?_⟩⟩
    exact h.pop.calm hne hr
  | innerPersistent q i e es about honce =>
    refine ⟨h.kept, h.other, fun hne hr => ?_⟩
    simpa using (List.forall_mem_cons.mp (h.calm hne hr)).1
  | @innerOnce lists above rest q i e es about honce =>
    obtain ⟨⟨rfl, hq, hmem⟩, _⟩ := List.forall_mem_cons.mp hproper.above
    have he := hmem e List.mem_cons_self
    -- a notification consumes a once-entry of its observers: only if they are the type itself
    have htype : type = "removeListener" := by
      rcases hcases with htype | hrepeated | hobservers
      · exact htype
      · by_contra hne
        simpa using (List.forall_mem_cons.mp (h.calm hne hrepeated)).1
      · rw [registrations_eq hq] at hobservers
        exact absurd (honce.symm.trans (hobservers e he)) Bool.noConfusion
    subst htype
    obtain rfl : n = i := Option.some.inj (harray.symm.trans hq)
    obtain ⟨hkept, hother⟩ := h.consumes hproper hmixed he honce
    exact ⟨hkept, hother, fun hne => absurd rfl hne⟩
  | persistent e honce => exact ⟨h.kept, h.other, fun _ _ => by simp⟩
  | @once lists rest e honce =>
    have he := hproper.rest e List.mem_cons_self
    obtain ⟨hkept, hother⟩ := h.consumes hproper hmixed he honce
    refine ⟨hkept, hother, fun _ hrepeated => ?_⟩
    dsimp only
    rw [notice, if_neg fun hnotice => not_repeats (hwf.nodup type n) hmixed hrepeated he honce
      (hproper.lists type n) hnotice.1]
    simp

/-! ## Where a function is registered both ways -/

/-- A persistent registration of the function is lost, or a once-registration of it is still
to be called. -/
def Course.Loses (s : State Fn) (type : String) (n : Nat) (f : Fn) (c : Course Fn) : Prop :=
  (∃ p ∈ s.lists type n, p.once = false ∧ p ∉ c.lists type n) ∨
    ∃ e ∈ c.rest, e.once = true ∧ e.listener = f

theorem Course.Loses.move (hwf : WellFormed s) {f : Fn} {p : Entry Fn} (hp : p ∈ s.lists type n)
    (hpersistent : p.once = false) (hlistener : p.listener = f) {c c' : Course Fn}
    (hproper : c.Proper s type n) (h : c.Loses s type n f)
    (hmove : Course.Move s.events type n c c') : c'.Loses s type n f := by
  cases hmove with
  | leave | unheard | done | start | wrapper | innerPersistent => exact h
  | @innerOnce lists above rest q i e es about honce =>
    refine h.imp_left ?_
    rintro ⟨p, hp, hpersistent, hlost⟩
    exact ⟨p, hp, hpersistent, fun hmem => hlost ((consumeAt_sublist _ q i e _ _).subset hmem)⟩
  | persistent e honce =>
    refine h.imp_right ?_
    rintro ⟨x, hx, hxonce, hxlistener⟩
    refine ⟨x, List.mem_of_ne_of_mem ?_ hx, hxonce, hxlistener⟩
    rintro rfl
    exact absurd (honce.symm.trans hxonce) Bool.false_ne_true
  | @once lists rest e honce =>
    have hnodup := (hproper.lists type n).nodup (hwf.nodup type n)
    dsimp only at hnodup
    by_cases hlost : ∃ p ∈ s.lists type n, p.once = false ∧ p ∉ lists type n
    · obtain ⟨p, hp, hpersistent, hlost⟩ := hlost
      exact .inl ⟨p, hp, hpersistent,
        fun hmem => hlost ((consumeAt_sublist _ type n e _ _).subset hmem)⟩
    by_cases hlater : ∃ x ∈ rest, x.once = true ∧ x.listener = f
    · exact .inr hlater
    -- the entry is the last once-registration of the function: its `off` meets a persistent one
    have hlast : e.listener = f := by
      obtain ⟨x, hx, hxonce, hxlistener⟩ := h.resolve_left hlost
      rcases List.mem_cons.mp hx with rfl | hx
      · exact hxlistener
      · exact absurd ⟨x, hx, hxonce, hxlistener⟩ hlater
    have hpmem : p ∈ (lists type n).erase e := by
      refine (List.mem_erase_of_ne ?_).mpr ?_
      · rintro rfl
        exact absurd (honce.symm.trans hpersistent) Bool.noConfusion
      · by_contra hne
        exact hlost ⟨p, hp, hpersistent, hne⟩
    obtain ⟨x, l₁, l₂, hbefore, hx, hsplit, herased⟩ := List.exists_of_eraseP hpmem
      (p := (·.listener = e.listener)) (by simpa [hlast] using hlistener)
    have hxmem : x ∈ (lists type n).erase e := by
      rw [hsplit]
      exact List.mem_append_right _ List.mem_cons_self
    refine .inl ⟨x, (hproper.lists type n).subset (List.mem_of_mem_erase hxmem), ?_, ?_⟩
    · by_contra hxonce
      have hxonce : x.once = true := by simpa using hxonce
      have hxrest := hproper.once x (List.mem_of_mem_erase hxmem) hxonce
      rcases List.mem_cons.mp hxrest with rfl | hxrest
      · exact hnodup.not_mem_erase hxmem
      · have hsame : x.listener = e.listener := by simpa using hx
        exact hlater ⟨x, hxrest, hxonce, hsame.trans hlast⟩
    · dsimp only
      rw [consumeAt_self, consume, herased]
      have hsplit' := hnodup.erase e
      rw [hsplit] at hsplit'
      exact (List.nodup_cons.mp (List.nodup_middle.mp hsplit')).1

/-! ## Where a once-registration repeats another -/

/-- The frame is a notification that is to call the observer. -/
def Frame.Brings (r : Entry Fn) : Frame Fn → Prop
  | .emit q _ => q = "removeListener"
  | .loop q _ rest _ => q = "removeListener" ∧ r ∈ rest
  | _ => False

/-- The once-observer is consumed, or a notification is on its way to it, or two
once-registrations of one function are still to be called. -/
def Course.Notifies (type : String) (n i : Nat) (r e e' : Entry Fn) (c : Course Fn) : Prop :=
  r ∉ c.lists "removeListener" i ∨ (∃ f ∈ c.above, f.Brings r) ∨
    ((e ∈ c.lists type n ∧ e ∈ c.rest) ∧ e' ∈ c.lists type n ∧ e' ∈ c.rest)

theorem Course.Notifies.move (hwf : WellFormed s) (htype : type ≠ "removeListener") {i : Nat}
    (hi : s.events "removeListener" = some i) {r e e' : Entry Fn} (hr : r.once = true)
    (honce : e.once = true) (honce' : e'.once = true) (hlistener : e.listener = e'.listener)
    (hne : e ≠ e') {c c' : Course Fn} (hproper : c.Proper s type n)
    (h : c.Notifies type n i r e e') (hmove : Course.Move s.events type n c c') :
    c'.Notifies type n i r e e' := by
  have hgone : ∀ {lists : String → Nat → List (Entry Fn)} (q : String) (j : Nat) (x : Entry Fn),
      r ∉ lists "removeListener" i → r ∉ consumeAt lists q j x "removeListener" i :=
    fun q j x hr hmem => hr ((consumeAt_sublist _ q j x _ _).subset hmem)
  cases hmove with
  | leave x => exact h.imp_right (.imp_left fun hf => by simpa [Frame.Brings] using hf)
  | unheard about hempty => exact .inl (by simp [hempty i hi])
  | done q j about => exact h.imp_right (.imp_left fun hf => by simpa [Frame.Brings] using hf)
  | @start lists above rest about j hj =>
    obtain rfl : i = j := Option.some.inj (hi.symm.trans hj)
    by_cases hmem : r ∈ lists "removeListener" i
    · exact .inr (.inl ⟨_, List.mem_cons_self, rfl, hmem⟩)
    · exact .inl hmem
  | wrapper x about => exact h.imp_right (.imp_left fun hf => by simpa [Frame.Brings] using hf)
  | innerPersistent q j x es about hx =>
    have hxr : r ≠ x := by
      rintro rfl
      exact absurd (hx.symm.trans hr) Bool.false_ne_true
    exact h.imp_right (.imp_left fun hf => by simpa [Frame.Brings, hxr] using hf)
  | @innerOnce lists above rest q j x es about hx =>
    obtain ⟨⟨rfl, hj, _⟩, _⟩ := List.forall_mem_cons.mp hproper.above
    obtain rfl : i = j := Option.some.inj (hi.symm.trans hj)
    by_cases hxr : r = x
    · subst hxr
      left
      dsimp only
      rw [consumeAt_self]
      exact notMem_consume ((hproper.lists _ i).nodup (hwf.nodup _ i))
    · rcases h with h | ⟨f, hf, hbrings⟩ | h
      · exact .inl (hgone _ _ _ h)
      · right
        left
        rcases List.mem_cons.mp hf with rfl | hf
        · refine ⟨.loop "removeListener" i es about, by simp, rfl, ?_⟩
          exact List.mem_of_ne_of_mem hxr hbrings.2
        · exact ⟨f, by simp [hf], hbrings⟩
      · refine .inr (.inr ?_)
        dsimp only
        rwa [consumeAt_of_ne _ x fun heq => htype heq.1]
  | persistent x hx =>
    refine h.imp_right fun h => .inr ?_
    obtain ⟨⟨he, her⟩, he', her'⟩ := h.resolve_left (by simp)
    refine ⟨⟨he, List.mem_of_ne_of_mem ?_ her⟩, he', List.mem_of_ne_of_mem ?_ her'⟩
    · rintro rfl
      exact absurd (hx.symm.trans honce) Bool.false_ne_true
    · rintro rfl
      exact absurd (hx.symm.trans honce') Bool.false_ne_true
  | @once lists rest x hx =>
    rcases h with h | h | ⟨⟨he, her⟩, he', her'⟩
    · exact .inl (hgone _ _ _ h)
    · exact absurd h (by simp)
    · by_cases hxe : x.listener = e.listener
      · -- one of the two entries is not `x`, and the wrapper of `x` removes a registration
        have hrepeats : repeats x (lists type n) = true := by
          rw [repeats, List.any_eq_true]
          by_cases heq : e = x
          · refine ⟨e', (List.mem_erase_of_ne fun h => hne (heq.trans h.symm)).mpr he', ?_⟩
            simpa using (hxe.trans hlistener).symm
          · exact ⟨e, (List.mem_erase_of_ne heq).mpr he, by simpa using hxe.symm⟩
        refine .inr (.inl ⟨.emit "removeListener" (some (type, x.listener)), ?_, rfl⟩)
        rw [notice, if_pos ⟨hrepeats, by rw [hi]; rfl⟩]
        simp
      · have hxe' : e'.listener ≠ x.listener := fun h => hxe (h.symm.trans hlistener.symm)
        refine .inr (.inr ?_)
        dsimp only
        rw [consumeAt_self]
        refine ⟨⟨mem_consume_of_ne he (Ne.symm hxe), List.mem_of_ne_of_mem ?_ her⟩,
          mem_consume_of_ne he' hxe', List.mem_of_ne_of_mem ?_ her'⟩
        · rintro rfl
          exact hxe rfl
        · rintro rfl
          exact hxe' rfl

/-! ## The end of the call -/

/-- The first step of the call, and the rest of it. -/
theorem State.Completes.of_idle {s' : State Fn} (hstack : s'.stack = s.stack)
    (h : ∃ fuel, ∀ m, fuel ≤ m → State.settle s.stack.length m (s.emit type none) = s') :
    s.Completes (.emit type) s' :=
  ⟨hstack, State.settles_of_idle (by simp [State.call]) h⟩

section

omit [DecidableEq Fn]

/-- Nobody listens: the call is over at once and changes nothing. -/
theorem emit_unheard (hscript : s.inScript = true) (hempty : s.registrations type = []) :
    (s.emit type none).stack = s.stack ∧ (s.emit type none).lists = s.lists ∧
      (s.emit type none).events = s.events := by
  have hcaller : s.stack.dropWhile (!·.isScript) = s.stack := by
    unfold State.inScript at hscript
    cases hstack : s.stack with
    | nil => rfl
    | cons f below =>
      rw [hstack] at hscript
      exact List.dropWhile_cons_of_neg (by simpa using hscript)
  have hunheard : (s.unheard type).stack = s.stack ∧ (s.unheard type).lists = s.lists ∧
      (s.unheard type).events = s.events := by
    unfold State.unheard
    split
    next => exact ⟨hcaller, rfl, rfl⟩
    next => simp
  unfold State.emit
  split
  next n hslot =>
    rw [registrations_eq (State.slot_eq_array.mp hslot)] at hempty
    rw [hempty]
    exact hunheard
  next => exact ⟨hcaller, rfl, rfl⟩
  next => exact hunheard

theorem separate_of_empty (hempty : s.registrations type = []) : s.Separate type := by
  refine ⟨?_, .inr (.inl ?_)⟩ <;> rw [hempty] <;> intro e he <;> cases he

theorem course_start (harray : s.events type = some n) (hne : s.lists type n ≠ []) :
    (⟨s.lists, [], s.lists type n⟩ : Course Fn).Proper s type n ∧
      (⟨s.lists, [], s.lists type n⟩ : Course Fn).Shows s type n (s.emit type none) := by
  refine ⟨⟨fun _ _ => .refl _, by simp, fun _ he => he, fun _ he _ => he⟩, ?_⟩
  have hemit : s.emit type none = s.push (.loop type n (s.lists type n) none) := by
    rw [State.emit, State.slot_eq_array.mpr harray]
    simp [hne]
  rw [hemit]
  exact ⟨rfl, rfl, rfl⟩

end

section Last

variable {t s' : State Fn} {c : Course Fn}

theorem Course.Spares.consumed (h : c.Spares s type n) (hends : Course.Ends s type n t c s')
    (harray : s.events type = some n) : s.Consumed s' type := by
  intro q
  by_cases hq : q = type
  · have hpersistent : (c.lists type n).filter (!·.once) = c.lists type n := by
      rw [List.filter_eq_self]
      intro e he
      by_contra honce
      have hlater := hends.once e he (by simpa using honce)
      rw [hends.rest_nil] at hlater
      cases hlater
    subst hq
    rw [if_pos rfl, registrations_eq harray, registrations_eq (hends.events_eq ▸ harray),
      hends.lists_eq, ← h.kept, hpersistent]
  · rw [if_neg hq, State.registrations, State.registrations, hends.events_eq]
    cases s.events q with
    | none => rfl
    | some i =>
      rw [hends.lists_eq]
      exact h.other q i fun heq => hq heq.1

theorem Course.Loses.not_consumed {f : Fn} (h : c.Loses s type n f)
    (hends : Course.Ends s type n t c s') (harray : s.events type = some n) :
    ¬ s.Consumed s' type := by
  obtain ⟨p, hp, hpersistent, hlost⟩ := h.resolve_right (by simp [hends.rest_nil])
  intro hconsumed
  have htype := hconsumed type
  rw [if_pos rfl, registrations_eq harray, registrations_eq (hends.events_eq ▸ harray),
    hends.lists_eq] at htype
  apply hlost
  rw [htype]
  exact List.mem_filter.mpr ⟨hp, by simp [hpersistent]⟩

theorem Course.Notifies.not_consumed {i : Nat} {r e e' : Entry Fn}
    (h : c.Notifies type n i r e e') (hends : Course.Ends s type n t c s')
    (htype : type ≠ "removeListener") (hi : s.events "removeListener" = some i)
    (hr : r ∈ s.lists "removeListener" i) : ¬ s.Consumed s' type := by
  have hgone : r ∉ c.lists "removeListener" i := by
    refine h.resolve_right ?_
    rintro (⟨f, hf, -⟩ | ⟨⟨-, he⟩, -⟩)
    · simp [hends.above_nil] at hf
    · simp [hends.rest_nil] at he
  intro hconsumed
  have hobservers := hconsumed "removeListener"
  rw [if_neg htype.symm, registrations_eq hi, registrations_eq (hends.events_eq ▸ hi),
    hends.lists_eq] at hobservers
  exact hgone (hobservers ▸ hr)

end Last

/-! ## The three ways in which the call ends -/

section Ways

variable (hwf : WellFormed s) (harray : s.events type = some n) (hne : s.lists type n ≠ [])

include hwf harray hne

theorem emit_consumes_of_separate (hseparate : s.Separate type) :
    ∃ s', s.Completes (.emit type) s' ∧ s.Consumed s' type := by
  obtain ⟨hproper, hshows⟩ := course_start harray hne
  obtain ⟨c, s', hends, hspares⟩ := hshows.ends hwf.toHomed hwf.nodup harray (·.Spares s type n)
    (fun c c' hc hinv hmove => hinv.move hwf harray hseparate hc hmove) hproper
    ⟨rfl, fun _ _ _ => rfl, fun _ _ => by simp⟩
  exact ⟨s', .of_idle hends.stack_eq hends.settles, hspares.consumed hends harray⟩

theorem emit_loses_of_mixed (hmixed : ¬ Unmixed (s.lists type n)) :
    ∃ s', s.Completes (.emit type) s' ∧ ¬ s.Consumed s' type := by
  simp only [Unmixed, not_forall, not_not] at hmixed
  obtain ⟨e, he, p, hp, honce, hpersistent, hlistener⟩ := hmixed
  obtain ⟨hproper, hshows⟩ := course_start harray hne
  obtain ⟨c, s', hends, hloses⟩ :=
    hshows.ends hwf.toHomed hwf.nodup harray (·.Loses s type n e.listener)
      (fun c c' hc hinv hmove => hinv.move hwf hp hpersistent hlistener.symm hc hmove) hproper
      (.inr ⟨e, he, honce, rfl⟩)
  exact ⟨s', .of_idle hends.stack_eq hends.settles, hloses.not_consumed hends harray⟩

theorem emit_notifies_of_repeated (htype : type ≠ "removeListener")
    (hrepeated : ¬ Unrepeated (s.lists type n)) {r : Entry Fn}
    (hr : r ∈ s.registrations "removeListener") (hronce : r.once = true) :
    ∃ s', s.Completes (.emit type) s' ∧ ¬ s.Consumed s' type := by
  simp only [Unrepeated, not_forall] at hrepeated
  obtain ⟨e, he, e', he', honce, honce', hlistener, hdiffer⟩ := hrepeated
  obtain ⟨i, hi⟩ : ∃ i, s.events "removeListener" = some i := by
    unfold State.registrations at hr
    split at hr
    next i hi => exact ⟨i, hi⟩
    next => cases hr
  rw [registrations_eq hi] at hr
  obtain ⟨hproper, hshows⟩ := course_start harray hne
  obtain ⟨c, s', hends, hnotifies⟩ :=
    hshows.ends hwf.toHomed hwf.nodup harray (·.Notifies type n i r e e')
      (fun c c' hc hinv hmove =>
        hinv.move hwf htype hi hronce honce honce' hlistener hdiffer hc hmove) hproper
      (.inr (.inr ⟨⟨he, he⟩, he', he'⟩))
  exact ⟨s', .of_idle hends.stack_eq hends.settles, hnotifies.not_consumed hends htype hi hr⟩

end Ways

omit [DecidableEq Fn] in
theorem consumed_of_empty {s' : State Fn} (hempty : s.registrations type = [])
    (hlists : s'.lists = s.lists) (hevents : s'.events = s.events) : s.Consumed s' type := by
  intro q
  have hsame : s'.registrations q = s.registrations q := by
    rw [State.registrations, hlists, hevents]
    rfl
  rw [hsame]
  split
  next hq => rw [hq, hempty, List.filter_nil]
  next => rfl

/-- A passive `emit(type)` returns, and it has consumed the once-entries of the type and
nothing else exactly if the registrations are separate. -/
theorem emit_consumes_only_once_entries_iff (h : Reachable (fun _ _ => True) s)
    (hscript : s.inScript = true) (type : String) :
    ∃ s', s.Completes (.emit type) s' ∧ (s.Consumed s' type ↔ s.Separate type) := by
  have hwf := h.wellFormed
  by_cases hempty : s.registrations type = []
  · obtain ⟨hstack, hlists, hevents⟩ := emit_unheard hscript hempty
    refine ⟨s.emit type none, .of_idle hstack ⟨0, fun m _ => ?_⟩, ?_⟩
    · exact State.settle_of_le (by rw [hstack]) m
    · exact iff_of_true (consumed_of_empty hempty hlists hevents) (separate_of_empty hempty)
  · obtain ⟨n, harray, hne⟩ : ∃ n, s.events type = some n ∧ s.lists type n ≠ [] := by
      unfold State.registrations at hempty
      split at hempty
      next n harray => exact ⟨n, harray, hempty⟩
      next => exact absurd rfl hempty
    by_cases hseparate : s.Separate type
    · obtain ⟨s', hcompletes, hconsumed⟩ := emit_consumes_of_separate hwf harray hne hseparate
      exact ⟨s', hcompletes, iff_of_true hconsumed hseparate⟩
    · obtain ⟨s', hcompletes, hnot⟩ : ∃ s', s.Completes (.emit type) s' ∧ ¬ s.Consumed s' type := by
        have hways := hseparate
        rw [State.Separate, registrations_eq harray, not_and_or] at hways
        rcases hways with hmixed | hnotified
        · exact emit_loses_of_mixed hwf harray hne hmixed
        · simp only [not_or, not_forall] at hnotified
          obtain ⟨htype, hrepeated, r, hr, hronce⟩ := hnotified
          exact emit_notifies_of_repeated hwf harray hne htype hrepeated hr (by simpa using hronce)
      exact ⟨s', hcompletes, iff_of_false hnot hseparate⟩

/-- `on("x", 1)` and `once("x", 2)`. -/
def separateListeners : State Nat :=
  ((State.fresh.call (.on "x" (some 1))).idle.call (.once "x" (some 2))).idle

theorem emit_consumes_only_once_entries_separate :
    separateListeners.Separate "x" ∧ ∃ s', separateListeners.Completes (.emit "x") s' ∧
      (separateListeners.Consumed s' "x" ↔ separateListeners.Separate "x") := by
  have hrun : Transition.run State.step State.fresh
      [.call (.on "x" (some 1)), .go, .call (.once "x" (some 2)), .go] =
        some separateListeners := rfl
  refine ⟨⟨by unfold Unmixed; decide, .inr (.inl (by unfold Unrepeated; decide))⟩, ?_⟩
  exact emit_consumes_only_once_entries_iff (Transition.reachable_of_run hrun) rfl "x"

/-- `on("x", 1)` and `once("x", 1)`. -/
def mixedListeners : State Nat :=
  ((State.fresh.call (.on "x" (some 1))).idle.call (.once "x" (some 1))).idle

/-- The wrapper's `off` takes the persistent registration of the same function along. -/
theorem emit_loses_persistent_listener :
    ¬ ∀ (s : State Nat) (type : String), Reachable (fun _ _ => True) s → s.inScript = true →
      ∃ s', s.Completes (.emit type) s' ∧ s.Consumed s' type := by
  intro h
  have hrun : Transition.run State.step State.fresh
      [.call (.on "x" (some 1)), .go, .call (.once "x" (some 1)), .go] = some mixedListeners := rfl
  obtain ⟨s', ⟨-, fuel, hfuel⟩, hconsumed⟩ :=
    h mixedListeners "x" (Transition.reachable_of_run hrun) rfl
  have hsettled : State.settle 0 (fuel + 8) (mixedListeners.call (.emit "x")) =
      State.settle 0 8 (mixedListeners.call (.emit "x")) :=
    State.settle_add (by decide) fuel
  have hs' : s' = State.settle 0 8 (mixedListeners.call (.emit "x")) :=
    (hfuel (fuel + 8) (by omega)).symm.trans hsettled
  have hx := hconsumed "x"
  rw [hs'] at hx
  revert hx
  decide

end Events
