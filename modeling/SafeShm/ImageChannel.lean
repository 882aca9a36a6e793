import SafeShm.ProducerConsumer

/-!
# The image channel

`ShmProducerConsumer`, the one-place channel of the image module. Its two semaphores are those of
`ProducerConsumer`, but `load` copies the segment into a buffer of its object and returns the
buffer, which is the same one each time. An object makes one call at a time, since a call keeps the
interpreter lock, and so it is one party.

The copy is part of the call, and nobody else gets at the segment meanwhile: the channel makes the
steps of `ProducerConsumer`, whose callback runs when the last word is copied.
-/

namespace SafeShm.ImageChannel
open StateMachines

/-- The next step of an object: the constructor at `sem_read_` and at `sem_write_`; in `store` the
wait, word `k` of the assignment to the segment, and the post; in `load` the wait, word `k` of the
`std::memcpy` into `image_`, and the post. -/
inductive Pc (F : FlatType) where
  | absent
  | opening
  | outside
  | awaitingWrite (image : F.T)
  | writing (image : F.T) (k : ℕ)
  | postingRead
  | awaitingRead
  | copying (k : ℕ)
  | postingWrite

variable {F : FlatType} {ι : Type}

/-- The segment, the two semaphores, and the places and the buffers of the objects. `stored` and
`loaded` are the images that `store` has written and that `load` has copied, in order. -/
structure State (F : FlatType) (ι : Type) where
  slot : F.T
  semRead : Option ℕ
  semWrite : Option ℕ
  pc : ι → Pc F
  image : ι → F.T
  stored : List F.T
  loaded : List (ι × F.T)

/-- The name is new and nobody has opened it. `make_shared<Image>()` is a zero image. -/
def initial : State F ι :=
  ⟨fun _ => F.zero, none, none, fun _ => .absent, fun _ => F.valueInit, [], []⟩

inductive Action (F : FlatType) (ι : Type) where
  | store (i : ι) (image : F.T)
  | load (i : ι)
  | turn (i : ι)

section Steps
variable [DecidableEq ι]

def State.goto (s : State F ι) (i : ι) (p : Pc F) : State F ι :=
  { s with pc := Function.update s.pc i p }

/-- The next step of object `i`. A wait on the value 0 blocks, and so changes nothing. -/
def State.turn (s : State F ι) (i : ι) : State F ι :=
  match s.pc i with
  | .absent => { (s.goto i .opening) with semRead := some (s.semRead.getD 0) }
  | .opening => { (s.goto i .outside) with semWrite := some (s.semWrite.getD 1) }
  | .outside => s
  | .awaitingWrite image =>
      match s.semWrite with
      | some (n + 1) => { (s.goto i (.writing image 0)) with semWrite := some n }
      | _ => s
  | .writing image k =>
      if h : k < F.words then
        { (s.goto i (.writing image (k + 1))) with
          slot := Function.update s.slot ⟨k, h⟩ (image ⟨k, h⟩) }
      else { (s.goto i .postingRead) with stored := s.stored ++ [image] }
  | .postingRead => { (s.goto i .outside) with semRead := s.semRead.map (· + 1) }
  | .awaitingRead =>
      match s.semRead with
      | some (n + 1) => { (s.goto i (.copying 0)) with semRead := some n }
      | _ => s
  | .copying k =>
      if h : k < F.words then
        { (s.goto i (.copying (k + 1))) with
          image := Function.update s.image i
            (Function.update (s.image i) ⟨k, h⟩ (s.slot ⟨k, h⟩)) }
      else { (s.goto i .postingWrite) with loaded := s.loaded ++ [(i, s.image i)] }
  | .postingWrite => { (s.goto i .outside) with semWrite := s.semWrite.map (· + 1) }

def step (s : State F ι) : Action F ι → State F ι
  | .store i image =>
      match s.pc i with
      | .outside => s.goto i (.awaitingWrite image)
      | _ => s
  | .load i =>
      match s.pc i with
      | .outside => s.goto i .awaitingRead
      | _ => s
  | .turn i => s.turn i

end Steps

/-- The place of a party of `ProducerConsumer`; `load` is at the call of its callback while it
copies. -/
def Pc.channel : Pc F → ProducerConsumer.Pc F
  | .absent => .absent
  | .opening => .opening
  | .outside => .outside
  | .awaitingWrite image => .awaitingWrite image
  | .writing image k => .writing image k
  | .postingRead => .postingRead
  | .awaitingRead => .awaitingRead
  | .copying _ => .calling
  | .postingWrite => .postingWrite

def State.channel (s : State F ι) : ProducerConsumer.State F ι :=
  ⟨s.slot, s.semRead, s.semWrite, fun i => (s.pc i).channel, s.stored, s.loaded.map Prod.snd, 0⟩

def Pc.Inside : Pc F → Prop
  | .writing _ _ | .postingRead | .copying _ | .postingWrite => True
  | _ => False

def State.Inside (s : State F ι) (i : ι) : Prop := (s.pc i).Inside

/-- The two semaphore values, which are 0 and 1 before they are created, and the number of objects
inside. -/
noncomputable def State.tokens (s : State F ι) : ℕ :=
  s.semRead.getD 0 + s.semWrite.getD 1 + Set.ncard {i | s.Inside i}

theorem inside_iff (s : State F ι) (i : ι) : s.channel.Inside i ↔ s.Inside i := by
  rw [State.Inside, ProducerConsumer.State.Inside, show s.channel.pc i = (s.pc i).channel from rfl]
  cases s.pc i <;> exact Iff.rfl

def Pc.copied : Pc F → ℕ
  | .copying k => k
  | _ => 0

variable [DecidableEq ι]

def State.lastLoaded (s : State F ι) (i : ι) : F.T :=
  ((s.loaded.filter (fun x => x.1 = i)).getLast?.map Prod.snd).getD F.valueInit

/-- The buffer of every object holds what it loaded last, and the words copied since. -/
def Images (s : State F ι) : Prop :=
  ∀ i j, s.image i j = if j.val < (s.pc i).copied then s.slot j else s.lastLoaded i j

/-- What every step keeps. -/
structure Correct (s : State F ι) : Prop where
  channel : ProducerConsumer.Correct s.channel
  images : Images s

section Invariant
variable {s s' : State F ι} {i j : ι} {p : Pc F}

@[simp] theorem goto_pc : (s.goto i p).pc = Function.update s.pc i p := rfl

private theorem goto_copied (hp : p.copied = (s.pc i).copied) (j : ι) :
    ((s.goto i p).pc j).copied = (s.pc j).copied := by
  rw [goto_pc]
  by_cases hj : j = i
  · subst hj
    rw [Function.update_self, hp]
  · rw [Function.update_of_ne hj]

private theorem channel_mk (s : State F ι) (i : ι) (p : Pc F) (slot : F.T) (read write : Option ℕ)
    (image : ι → F.T) (stored : List F.T) (loaded : List (ι × F.T)) :
    State.channel ⟨slot, read, write, Function.update s.pc i p, image, stored, loaded⟩ =
      ⟨slot, read, write, Function.update s.channel.pc i p.channel, stored, loaded.map Prod.snd,
        0⟩ := by
  rw [State.channel]
  congr 1
  funext j
  exact Function.apply_update (fun _ => Pc.channel) s.pc i p j

private theorem channel_turn (h : ∀ k, s.pc i ≠ .copying k) :
    (s.turn i).channel = s.channel.turn i := by
  have hpc : s.channel.pc i = (s.pc i).channel := rfl
  have hwrite : s.channel.semWrite = s.semWrite := rfl
  have hread : s.channel.semRead = s.semRead := rfl
  rw [ProducerConsumer.State.turn, State.turn, hpc, hwrite, hread]
  cases hplace : s.pc i with
  | copying k => exact absurd hplace (h k)
  | outside => rfl
  | awaitingWrite image =>
    rcases s.semWrite with _ | _ | n
    · rfl
    · rfl
    · exact channel_mk s i ..
  | awaitingRead =>
    rcases s.semRead with _ | _ | n
    · rfl
    · rfl
    · exact channel_mk s i ..
  | writing image k =>
    by_cases hk : k < F.words
    · simp only [Pc.channel, hk, dite_true]
      exact channel_mk s i ..
    · simp only [Pc.channel, hk, dite_false]
      exact channel_mk s i ..
  | _ => exact channel_mk s i ..

private theorem channel_copy {k : ℕ} (hpc : s.pc i = .copying k) (hk : k < F.words) :
    (s.turn i).channel = s.channel := by
  have hcalling : s.channel.pc i = .calling := congrArg Pc.channel hpc
  have hstay : Function.update s.channel.pc i (Pc.copying (k + 1)).channel = s.channel.pc := by
    rw [Pc.channel, ← hcalling, Function.update_eq_self]
  simp only [State.turn, hpc, hk, dite_true, State.goto]
  rw [channel_mk, hstay]
  rfl

private theorem channel_copied {k : ℕ} (hpc : s.pc i = .copying k) (hk : ¬ k < F.words)
    (himage : s.image i = s.slot) : (s.turn i).channel = (s.channel.turn i).turn i := by
  have hcalling : s.channel.pc i = .calling := congrArg Pc.channel hpc
  have hcall : s.channel.turn i = { (s.channel.goto i (.running s.slot)) with
      delivered := s.loaded.map Prod.snd ++ [s.slot] } := by
    rw [ProducerConsumer.State.turn, hcalling]
    rfl
  have hrunning : (s.channel.turn i).pc i = .running s.slot := by
    rw [hcall]
    exact Function.update_self ..
  rw [ProducerConsumer.State.turn.eq_def (s.channel.turn i), hrunning, hcall]
  simp only [State.turn, hpc, hk, dite_false, State.goto, ProducerConsumer.State.goto,
    Function.update_idem]
  rw [channel_mk, List.map_append, List.map_singleton, himage]
  rfl

private theorem Images.frame (h : Images s) (himage : s'.image = s.image)
    (hloaded : s'.loaded = s.loaded) (hcopied : ∀ j, (s'.pc j).copied = (s.pc j).copied)
    (hslot : s'.slot = s.slot ∨ ∀ j, (s.pc j).copied = 0) : Images s' := by
  intro j w
  have hlast : s'.lastLoaded j = s.lastLoaded j := by
    rw [State.lastLoaded, State.lastLoaded, hloaded]
  rw [himage, hcopied, hlast, h j w]
  rcases hslot with hslot | hnone
  · rw [hslot]
  · rw [hnone j, if_neg (Nat.not_lt_zero _), if_neg (Nat.not_lt_zero _)]

/-- The next word is copied. -/
private theorem Images.copy (h : Images s) {k : ℕ} (hpc : s.pc i = .copying k) (hk : k < F.words) :
    Images (s.turn i) := by
  have hturn : s.turn i = { (s.goto i (.copying (k + 1))) with
      image := Function.update s.image i
        (Function.update (s.image i) ⟨k, hk⟩ (s.slot ⟨k, hk⟩)) } := by
    rw [State.turn, hpc]
    exact dif_pos hk
  intro j w
  have hrest : (s.turn i).slot = s.slot ∧ (s.turn i).lastLoaded j = s.lastLoaded j := by
    rw [hturn]
    exact ⟨rfl, rfl⟩
  have hplaces : (s.turn i).pc = Function.update s.pc i (.copying (k + 1)) := by
    rw [hturn]
    rfl
  rw [hrest.1, hrest.2]
  by_cases hj : j = i
  · subst hj
    have hbefore : (s.pc j).copied = k := by rw [hpc]; rfl
    have hafter : ((s.turn j).pc j).copied = k + 1 := by
      rw [hplaces, Function.update_self]
      rfl
    have himage : (s.turn j).image j =
        Function.update (s.image j) ⟨k, hk⟩ (s.slot ⟨k, hk⟩) := by
      rw [hturn]
      exact Function.update_self ..
    rw [himage, hafter]
    by_cases hw : w = ⟨k, hk⟩
    · subst hw
      rw [Function.update_self, if_pos (Nat.lt_succ_self k)]
    · have hne : w.val ≠ k := fun heq => hw (Fin.ext heq)
      rw [Function.update_of_ne hw, h j w, hbefore]
      by_cases hlt : w.val < k
      · rw [if_pos hlt, if_pos (Nat.lt_succ_of_lt hlt)]
      · rw [if_neg hlt, if_neg (by omega)]
  · have himage : (s.turn i).image j = s.image j := by
      rw [hturn]
      exact Function.update_of_ne hj ..
    rw [hplaces, Function.update_of_ne hj, himage]
    exact h j w

private theorem Images.copied (h : Images s) {k : ℕ} (hpc : s.pc i = .copying k)
    (hk : ¬ k < F.words) : Images (s.turn i) := by
  have hturn : s.turn i = { (s.goto i .postingWrite) with
      loaded := s.loaded ++ [(i, s.image i)] } := by
    rw [State.turn, hpc]
    exact dif_neg hk
  intro j w
  have himage : (s.turn i).image = s.image ∧ (s.turn i).slot = s.slot := by
    rw [hturn]
    exact ⟨rfl, rfl⟩
  have hplaces : (s.turn i).pc = Function.update s.pc i .postingWrite := by
    rw [hturn]
    rfl
  rw [himage.1, himage.2]
  by_cases hj : j = i
  · subst hj
    have hafter : ((s.turn j).pc j).copied = 0 := by
      rw [hplaces, Function.update_self]
      rfl
    have hlast : (s.turn j).lastLoaded j = s.image j := by
      rw [hturn]
      simp [State.lastLoaded]
    rw [hafter, hlast, if_neg (Nat.not_lt_zero _)]
  · have hlast : (s.turn i).lastLoaded j = s.lastLoaded j := by
      rw [hturn]
      simp [State.lastLoaded, Ne.symm hj]
    rw [hplaces, Function.update_of_ne hj, hlast]
    exact h j w

omit [DecidableEq ι] in
private theorem copied_eq_zero (h : ProducerConsumer.Correct s.channel) {image : F.T} {k : ℕ}
    (hpc : s.pc i = .writing image k) (j : ι) : (s.pc j).copied = 0 := by
  cases hj : s.pc j with
  | copying n =>
    -- two objects would be inside
    have hi : s.channel.Inside i := by
      rw [ProducerConsumer.State.Inside, show s.channel.pc i = (s.pc i).channel from rfl, hpc]
      trivial
    have hinside : s.channel.Inside j := by
      rw [ProducerConsumer.State.Inside, show s.channel.pc j = (s.pc j).channel from rfl, hj]
      trivial
    obtain rfl := (h.token.of_inside hi).2.2.1 j hinside
    rw [hpc] at hj
    cases hj
  | _ => rfl

private theorem Images.turn (h : Images s) (hchannel : ProducerConsumer.Correct s.channel) (i : ι) :
    Images (s.turn i) := by
  cases hpc : s.pc i with
  | copying k =>
    by_cases hk : k < F.words
    · exact h.copy hpc hk
    · exact h.copied hpc hk
  | awaitingWrite image =>
    rw [State.turn, hpc]
    rcases s.semWrite with _ | _ | n
    · exact h
    · exact h
    · exact h.frame rfl rfl (goto_copied (by rw [hpc]; rfl)) (.inl rfl)
  | awaitingRead =>
    rw [State.turn, hpc]
    rcases s.semRead with _ | _ | n
    · exact h
    · exact h
    · exact h.frame rfl rfl (goto_copied (by rw [hpc]; rfl)) (.inl rfl)
  | writing image k =>
    rw [State.turn, hpc]
    dsimp only
    split
    · exact h.frame rfl rfl (goto_copied (by rw [hpc]; rfl)) (.inr (copied_eq_zero hchannel hpc))
    · exact h.frame rfl rfl (goto_copied (by rw [hpc]; rfl)) (.inl rfl)
  | outside =>
    rw [State.turn, hpc]
    exact h
  | _ =>
    rw [State.turn, hpc]
    exact h.frame rfl rfl (goto_copied (by rw [hpc]; rfl)) (.inl rfl)

private theorem Correct.turn (h : Correct s) (i : ι) : Correct (s.turn i) := by
  refine ⟨?_, h.images.turn h.channel i⟩
  by_cases hcopy : ∃ k, s.pc i = .copying k
  · obtain ⟨k, hpc⟩ := hcopy
    by_cases hk : k < F.words
    · rw [channel_copy hpc hk]
      exact h.channel
    · have himage : s.image i = s.slot := by
        funext w
        rw [h.images i w, hpc]
        exact if_pos (by have := w.isLt; simp only [Pc.copied]; omega)
      rw [channel_copied hpc hk himage]
      exact (h.channel.step (.turn i)).step (.turn i)
  · rw [channel_turn (not_exists.mp hcopy)]
    exact h.channel.step (.turn i)

theorem Correct.step (h : Correct s) (a : Action F ι) : Correct (step s a) := by
  cases a with
  | turn i => exact h.turn i
  | store i image =>
    rw [ImageChannel.step]
    split
    · rename_i hpc
      have hcall : (s.goto i (.awaitingWrite image)).channel =
          ProducerConsumer.step s.channel (.produce i image) := by
        rw [ProducerConsumer.step, show s.channel.pc i = (s.pc i).channel from rfl, hpc]
        exact channel_mk s i ..
      refine ⟨?_, h.images.frame rfl rfl (goto_copied (by rw [hpc]; rfl)) (.inl rfl)⟩
      rw [hcall]
      exact h.channel.step _
    · exact h
  | load i =>
    rw [ImageChannel.step]
    split
    · rename_i hpc
      have hcall : (s.goto i .awaitingRead).channel =
          ProducerConsumer.step s.channel (.consume i) := by
        rw [ProducerConsumer.step, show s.channel.pc i = (s.pc i).channel from rfl, hpc]
        exact channel_mk s i ..
      refine ⟨?_, h.images.frame rfl rfl (goto_copied (by rw [hpc]; rfl)) (.inl rfl)⟩
      rw [hcall]
      exact h.channel.step _
    · exact h

end Invariant

theorem correct_initial : Correct (initial : State F ι) :=
  ⟨ProducerConsumer.correct_initial, fun _ _ => rfl⟩

omit [DecidableEq ι] in
private theorem stored_cases {s : State F ι} (h : ProducerConsumer.Token s.channel) :
    s.stored = s.loaded.map Prod.snd ∨ s.stored = s.loaded.map Prod.snd ++ [s.slot] := by
  cases h with
  | empty _ _ _ same => exact .inl same
  | full _ _ _ pending => exact .inr pending
  | lost _ _ _ same => exact .inl same
  | held i _ _ _ here =>
    have hpc : s.channel.pc i = (s.pc i).channel := rfl
    rw [hpc] at here
    cases hplace : s.pc i with
    | writing image k =>
      rw [hplace] at here
      exact .inl here.1
    | postingRead =>
      rw [hplace] at here
      exact .inr here
    | copying k =>
      rw [hplace] at here
      exact .inr here
    | postingWrite =>
      rw [hplace] at here
      exact .inl here
    | _ =>
      rw [hplace] at here
      exact here.elim

/-- The image channel delivers every image once and in order. Along every run at most one object
is between its wait and its post and there is one token; the images loaded, by whichever objects,
are the images stored, in the order of the stores, but for the last one, which is then in the
segment; and nobody stores over an image that was not loaded. Between the copies of an object its
buffer, which all its loads have returned, is the image that it loaded last. -/
theorem images_exactlyOnce (acts : ℕ → Action F ι) (t : ℕ) :
    let s := after step initial acts t
    (∀ i j, s.Inside i → s.Inside j → i = j) ∧ s.tokens = 1 ∧
      s.loaded.map Prod.snd <+: s.stored ∧
      (s.stored = s.loaded.map Prod.snd ∨ s.stored = s.loaded.map Prod.snd ++ [s.slot]) ∧
      (∀ i image k, s.pc i = .writing image k → s.stored = s.loaded.map Prod.snd) ∧
      ∀ i, (∀ k, s.pc i ≠ .copying k) → s.image i = s.lastLoaded i := by
  intro s
  have hs : Correct s := after_invariant correct_initial (fun _ a h => h.step a) t
  have htoken : ProducerConsumer.Token s.channel := hs.channel.token
  have hstored := stored_cases htoken
  refine ⟨?_, ?_, ?_, hstored, ?_, ?_⟩
  · intro i j hi hj
    exact (htoken.of_inside ((inside_iff s j).mpr hj)).2.2.1 i ((inside_iff s i).mpr hi)
  · have hsum : s.channel.tokens + 0 = 1 := htoken.tokens_add_thrown
    have hset : {i | s.channel.Inside i} = {i | s.Inside i} :=
      Set.ext fun i => inside_iff s i
    rw [ProducerConsumer.State.tokens, hset] at hsum
    exact hsum
  · rcases hstored with same | pending
    · rw [same]
    · exact ⟨[s.slot], pending.symm⟩
  · intro i image k hpc
    have hi : s.channel.Inside i := by
      rw [inside_iff, State.Inside, hpc]
      trivial
    have here := (htoken.of_inside hi).2.2.2.1
    rw [show s.channel.pc i = (s.pc i).channel from rfl, hpc] at here
    exact here.1
  · intro i hcopy
    funext w
    have hzero : (s.pc i).copied = 0 := by
      cases hpc : s.pc i with
      | copying k => exact absurd hpc (hcopy k)
      | _ => rfl
    rw [hs.images i w, hzero, if_neg (Nat.not_lt_zero _)]

end SafeShm.ImageChannel
