/-
# Frames are let go of

A frame that an action has opened is closed at its end (`Eval.inFrame`). What
keeps a frame is something else: a frame is there as long as it is in use,
either by itself or by a frame inside it, and to let go of it takes it away,
with the frames around it that only it kept, unless a frame inside it is still
in use (`Frames.forget`).

The two come to the same. While a program runs every frame is in use by
itself, and lies inside a frame of a smaller number. An action closes all
frames that it has opened, so at its end nothing lies inside its own frame,
which is the last of those that are there.

Key definitions: `Frames.Tended`, `Discipline.tended`.
Key theorems: `Frames.forget_eq_close`, `Discipline.Keeps.run_inFrame`,
`Eval.frames_are_let_go`.
-/
import Treewalk.Proofs.Owners
import Treewalk.Proofs.Reached

namespace Treewalk

/-! ### Letting go of one frame -/

namespace Frames

variable {fs : Frames} {f g id : FrameId} {fr : Frame}

/-- The frames of a chain are its first one and frames that others lie in. -/
theorem mem_chain : ∀ {n : Nat} {f : FrameId}, g ∈ fs.chain n f →
    g = f ∨ ∃ k, fs.parent? k = some (some g)
  | 0, _, h => by simp [chain] at h
  | n + 1, f, h => by
    rw [chain, ← parent?] at h
    cases hp : fs.parent? f with
    | none => simp [hp] at h
    | some o =>
      cases o with
      | none =>
        rw [hp] at h
        exact .inl (List.mem_singleton.mp h)
      | some p =>
        rw [hp] at h
        rcases List.mem_cons.mp h with h | h
        · exact .inl h
        · rcases mem_chain h with rfl | h
          · exact .inr ⟨f, hp⟩
          · exact .inr h

theorem self_mem_chain (n : Nat) (hf : fs.isLive f = true) : f ∈ fs.chain (n + 1) f := by
  rw [isLive_eq] at hf
  rw [chain, ← parent?]
  cases hp : fs.parent? f with
  | none => simp [hp] at hf
  | some o => cases o <;> simp

theorem isLive_of_isHeld (h : fs.isHeld f = true) : fs.isLive f = true := by
  obtain ⟨fr, hf, -⟩ := (Option.any_eq_true ..).mp h
  rw [isLive, hf]
  rfl

theorem mem_inUse : g ∈ fs.inUse ↔ ∃ f, fs.isHeld f = true ∧ g ∈ fs.chain (f + 1) f := by
  rw [inUse, List.mem_flatMap]
  constructor
  · rintro ⟨f, -, hg⟩
    split at hg
    · rename_i hheld
      exact ⟨f, hheld, hg⟩
    · simp at hg
  · rintro ⟨f, hheld, hg⟩
    refine ⟨f, List.mem_range.mpr (lt_nextId_of_isLive (isLive_of_isHeld hheld)), ?_⟩
    rwa [if_pos hheld]

/-- **A frame that nothing lies in is gone when it is let go of, and no other,** as long as all
others are in use. -/
theorem forget_eq_close (hheld : ∀ f, fs.isLive f = true → fs.isHeld f = true)
    (hinner : ∀ f, fs.parent? f ≠ some (some id)) : fs.forget id = fs.close id := by
  have hget : ∀ f, f ≠ id → (fs.modify id ({ · with held := false })).get? f = fs.get? f :=
    fun f hf => by rw [get?_modify, if_neg (Ne.symm hf)]
  have hparent := fun k => parent?_modify fs id ({ · with held := false }) k fun _ => rfl
  -- the frame itself is no longer in use, and keeps no other
  have hgone : id ∉ (fs.modify id ({ · with held := false })).inUse := by
    rw [mem_inUse]
    rintro ⟨f, hf, hmem⟩
    rcases mem_chain hmem with rfl | ⟨k, hk⟩
    · rw [isHeld, get?_modify, if_pos rfl] at hf
      cases hg : fs.get? id with
      | none => simp [hg] at hf
      | some fr => simp [hg] at hf
    · exact hinner k ((hparent k).symm.trans hk)
  have hstays : ∀ f, f ≠ id → fs.isLive f = true →
      f ∈ (fs.modify id ({ · with held := false })).inUse := by
    intro f hne hlive
    refine mem_inUse.mpr ⟨f, ?_, self_mem_chain f ?_⟩
    · rw [isHeld, hget f hne]
      exact hheld f hlive
    · rw [isLive, hget f hne]
      exact hlive
  refine congrArg (Frames.mk · fs.defined) (Array.ext_getElem? fun j => ?_)
  rw [Array.getElem?_mapIdx, Array.getElem?_setIfInBounds]
  by_cases hj : id = j
  · subst hj
    have hused : (fs.modify id ({ · with held := false })).inUse.contains id = false := by
      simpa using hgone
    rw [hused, if_pos rfl, modify, Array.getElem?_modify, if_pos rfl]
    by_cases hlt : id < fs.frames.size
    · simp [hlt]
    · simp [hlt]
  · rw [if_neg hj, modify, Array.getElem?_modify, if_neg hj]
    cases hf : fs.frames[j]? with
    | none => rfl
    | some o =>
      cases o with
      | none => simp
      | some fr =>
        have hlive : fs.isLive j = true := by rw [isLive, get?, hf]; rfl
        have hused := List.contains_iff_mem.mpr (hstays j (Ne.symm hj) hlive)
        rw [modify] at hused
        rw [Option.map_some, if_pos hused]

/-! ### Frames while a program runs -/

/-- The frames of a program that runs: each lies inside one of a smaller number, has its tables in
step, and is in use by itself. -/
structure Tended (fs : Frames) : Prop where
  nonempty : 0 < fs.nextId
  ordered : fs.Ordered
  inStep : fs.InStep
  held : ∀ f, fs.isLive f = true → fs.isHeld f = true

namespace Tended

theorem initial : Frames.initial.Tended := by
  refine ⟨Nat.one_pos, ordered_initial, .initial, fun f h => ?_⟩
  cases f with
  | zero => rfl
  | succ f => simp [isLive, get?, Frames.initial] at h

theorem modify (h : fs.Tended) (id : FrameId) {g : Frame → Frame}
    (hparent : ∀ fr, (g fr).parent = fr.parent) (hheld : ∀ fr, (g fr).held = fr.held)
    (hstep : ∀ fr : Frame, fr.InStep → (g fr).InStep) : (fs.modify id g).Tended := by
  refine ⟨?_, h.ordered.congr fun k => parent?_modify fs id g k hparent,
    h.inStep.modify id hstep, fun f hf => ?_⟩
  · rw [nextId_modify]
    exact h.nonempty
  · rw [isLive, get?_modify] at hf
    rw [isHeld, get?_modify]
    by_cases hid : id = f
    · rw [if_pos hid, Option.isSome_map] at hf
      rw [if_pos hid, Option.any_map]
      simp only [hheld]
      exact h.held f hf
    · rw [if_neg hid] at hf ⊢
      exact h.held f hf

theorem setLocal (h : fs.Tended) (id : FrameId) (name : String) (v : Value) :
    (fs.setLocal id name v).Tended :=
  h.modify id (fun fr => by split <;> rfl) (fun fr => by split <;> rfl) fun _ hfr =>
    hfr.setValue name v

theorem bind (h : fs.Tended) (id : FrameId) (name : String) (s : Slot) (entry : Nat) :
    ((fs.bind id name s).bindSymbol id name entry).Tended := by
  have hbind : (fs.bind id name s).Tended := by
    have hmodify := h.modify id (g := (·.bind name s)) (fun _ => rfl) (fun _ => rfl)
      fun _ hfr => hfr.bind name s
    exact ⟨hmodify.nonempty, hmodify.ordered, hmodify.inStep, hmodify.held⟩
  exact hbind.modify id (fun _ => rfl) (fun _ => rfl) fun _ hfr => hfr.bindSymbol name entry

theorem openIn (h : fs.Tended) {parent : FrameId} (hp : parent < fs.nextId) :
    (fs.openIn parent).Tended := by
  refine ⟨?_, h.ordered.openIn hp, h.inStep.openIn parent, fun f hf => ?_⟩
  · rw [nextId_openIn]
    exact Nat.succ_pos _
  · rw [isLive, get?_openIn] at hf
    rw [isHeld, get?_openIn]
    by_cases hnew : f = fs.nextId
    · rw [if_pos hnew]
      rfl
    · rw [if_neg hnew] at hf ⊢
      exact h.held f hf

theorem close (h : fs.Tended) (id : FrameId) : (fs.close id).Tended := by
  refine ⟨?_, fun f p hp => ?_, h.inStep.close id, fun f hf => ?_⟩
  · rw [nextId_close]
    exact h.nonempty
  · rw [parent?_close] at hp
    split at hp
    · cases hp
    · exact h.ordered f p hp
  · rw [isLive, get?_close] at hf
    rw [isHeld, get?_close]
    by_cases hid : f = id
    · rw [if_pos hid] at hf
      cases hf
    · rw [if_neg hid] at hf ⊢
      exact h.held f hf

/-- The last of the frames that are there can be let go of. -/
theorem forget_eq_close (h : fs.Tended) (hlast : ∀ f, fs.isLive f = true → f ≤ id) :
    fs.forget id = fs.close id := by
  refine Frames.forget_eq_close h.held fun f hf => ?_
  have hlive : fs.isLive f = true := by
    rw [isLive_eq, hf]
    rfl
  exact absurd (h.ordered f id hf) (Nat.not_lt.mpr (hlast f hlive))

end Tended

end Frames

/-- What evaluation keeps of its frames. -/
def Discipline.tended : Discipline where
  Inv μ := μ.frames.Tended
  Later μ ν := μ.frames.nextId ≤ ν.frames.nextId
  Frm μ f := f < μ.frames.nextId
  refl _ := Nat.le_refl _
  trans := Nat.le_trans
  frm_later hl hf := Nat.lt_of_lt_of_le hf hl
  set h _ _ _ _ := ⟨h.setLocal .., Nat.le_of_eq (Frames.nextId_setLocal ..).symm⟩
  bind {μ f name slot _ _} h _ _ _ _ := by
    refine ⟨h.bind .., Nat.le_of_eq (Eq.symm ?_)⟩
    rw [Memory.bind, Frames.nextId_bindSymbol, Frames.nextId_bind]
  put h _ _ _ _ _ := ⟨h, Nat.le_refl _⟩
  alloc h _ _ _ := ⟨h, Nat.le_refl _, trivial⟩
  openIn {μ parent} h hp := by
    have hlt : parent < μ.frames.nextId := hp.elim id fun he => he ▸ h.nonempty
    refine ⟨h.openIn hlt, ?_, fun _ _ => trivial⟩
    rw [Memory.openIn, Frames.nextId_openIn]
    exact Nat.lt_succ_self _
  close {μ parent ν} _ hl h := by
    refine ⟨h.close _, ?_, fun _ _ => trivial⟩
    rw [Memory.openIn, Frames.nextId_openIn] at hl
    rw [Memory.close, Frames.nextId_close]
    exact Nat.le_of_succ_le hl

def Machine.forget (m : Machine) (id : FrameId) : Machine := { m with frames := m.frames.forget id }

namespace Discipline

variable {R : Regime} {k : Mode} {m : Machine} {α : Type} {x : FrameId → Eval α}
  {P : α → Machine → Prop} {parent : FrameId}

/-- **What an action in a frame of its own closes at its end, it could as well let go of.** -/
theorem Keeps.run_inFrame (h : tended.Keeps R k (x m.frames.nextId) (m.openIn parent) P) :
    (Eval.inFrame parent x).run m =
      Outcome.after (·.forget m.frames.nextId) ((x m.frames.nextId).run (m.openIn parent)) := by
  rw [Eval.run_inFrame]
  have hl := h.ends.leads
  generalize (x m.frames.nextId).run (m.openIn parent) = r at hl
  have hlast : ∀ f, r.machine.frames.isLive f = true → f ≤ m.frames.nextId := by
    intro f hf
    rw [hl.settled.live] at hf
    have hlt := Frames.lt_nextId_of_isLive hf
    rw [Machine.openIn, Frames.nextId_openIn] at hlt
    exact Nat.le_of_lt_succ hlt
  have hforget : r.machine.frames.forget m.frames.nextId = r.machine.frames.close m.frames.nextId :=
    hl.inv.forget_eq_close hlast
  refine Outcome.after_congr ?_
  rw [Machine.close, Machine.forget, hforget]

/-- The frames of every machine that a session reaches. -/
theorem tended_of_reached {config : Config} {Q : Program → Prop} (h : m.Reached config Q) :
    m.frames.Tended :=
  (runs_of_reached (D := .tended) (fun _ _ (hf : False) => hf.elim) .initial Nat.one_pos h).inv

end Discipline

/-- **Frames are let go of.** In every machine that a session reaches, the frame in which statements
or the body of a call are executed is gone afterwards because it is let go of: whatever they do, it
is then in use no more, and all frames there were before are. -/
theorem Eval.frames_are_let_go {config : Config} {Q : Program → Prop} {m : Machine}
    (h : m.Reached config Q) (rounds levels : Nat) :
    let ctx := Context.ofLevels config rounds levels
    (∀ frame < m.frames.nextId, ∀ body,
      (inFrame frame fun inner => Stmt.execAll ctx body inner).run m =
        Outcome.after (·.forget m.frames.nextId)
          ((Stmt.execAll ctx body m.frames.nextId).run (m.openIn frame))) ∧
      ∀ (func : FuncDecl) args,
        let body := fun frame => returnValue do
          (func.params.zip args).forM fun (p, v) => bindParam ctx frame p v
          Stmt.execAll ctx func.body frame
        (inFrame Frames.globalId body).run (m.called func.name) =
          Outcome.after (·.forget m.frames.nextId)
            ((body m.frames.nextId).run ((m.called func.name).openIn Frames.globalId)) := by
  intro ctx
  have hinv := Discipline.tended_of_reached h
  have hcalls := Discipline.tended.calls_ofLevels config rounds False levels
  have hknows : Regime.Knows ⟨config.limits, rounds, levels, False⟩ m := False.elim
  refine ⟨fun frame hframe body => ?_, fun func args => ?_⟩
  · obtain ⟨hopen, hfrm, -⟩ := Discipline.tended.openIn (μ := m.memory) hinv (.inl hframe)
    have hready : Discipline.tended.Ready ⟨config.limits, rounds, levels, False⟩ (m.openIn frame)
        m.frames.nextId := ⟨hopen, hknows, hfrm⟩
    exact (Discipline.keeps_execAll hcalls body _ False.elim
      ⟨hready, fun _ _ => trivial⟩).run_inFrame
  · have hcallee : Discipline.tended.Callee ⟨config.limits, rounds, levels, False⟩
        ((m.called func.name).openIn Frames.globalId) m.frames.nextId :=
      Discipline.callee_called hinv hknows
    have hparams := Discipline.keeps_bindParams_of (func.params.zip args) hcallee
      fun p _ m' _ h' => Discipline.keeps_bindParam hcalls h' trivial
    refine (Discipline.Keeps.returnValue (hparams.weaken.bind fun _ m₁ hl _ => ?_)).run_inFrame
    exact Discipline.keeps_execAll hcalls func.body _ False.elim
      ((Discipline.home_called hinv hknows).of_leads hl)

end Treewalk
