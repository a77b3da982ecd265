import Stratagem.Proofs.Session.Coupling

/-!
# What a session can tell of its feed

A session sees of its feed what it answers, and nothing else. So if two feeds mirror each other
(`Feed.Mirrors`), be they one feed in related states or two feeds of different kinds, ticks and
sessions over them cannot be told apart (`blind_tick`, `blind_session`).
-/

namespace Stratagem

variable {σ τ : Type} {R : σ → τ → Prop}

/-- What a tick shows: its result and the context that it leaves. -/
def Ticked.shown (t : Ticked σ) : Except StrategyError Outcome × Context := (t.result, t.context)

theorem Ticked.Alike.shown {a : Ticked σ} {b : Ticked τ} (h : Ticked.Alike Eq R a b) :
    a.shown = b.shown :=
  Prod.ext h.result h.context

/-- Two runs in one context, but over two feeds. -/
structure Run.Twins (R : σ → τ → Prop) (r : Run σ) (t : Run τ) : Prop where
  beside : r.Beside R t
  context : r.context = t.context

namespace Exec

variable {engine : Engine} {f : Feed σ} {g : Feed τ} {r : Run σ} {t : Run τ}

theorem twins_of_moves {n : Node} {r' : Run σ} {t' : Run τ} (context : r.context = t.context)
    (h : Run.Moves R n r t r' t') : r'.Twins R t' := by
  obtain ⟨beside, change, -, left, right⟩ := h
  refine ⟨beside, ?_⟩
  rw [left, right, context]

/-- No run can tell the feeds apart. -/
theorem blind_perform (mirrors : Feed.Mirrors R f g) (a : Agenda) (twins : r.Twins R t) :
    (perform engine f a).Coupled (perform engine g a) r t (fun _ => Run.Twins R) (Run.Twins R) := by
  refine coupled_perform (fun _ => Run.Twins R) ?_ (fun h => h) a r t twins
  rintro n path rest r t ⟨beside, context⟩
  have alike : Context.ReadAlike n r.context t.context := context ▸ .refl n r.context
  refine (coupled_enter mirrors n path beside alike).mono ?_ ?_
  · intro entry r' t' _ moves
    cases entry <;> exact twins_of_moves context moves
  · rintro r' t' ⟨later, left, right⟩
    refine ⟨later, ?_⟩
    rw [left, right, context]

end Exec

namespace Engine

variable {engine : Engine} {f : Feed σ} {g : Feed τ} {tree : Node} (mirrors : Feed.Mirrors R f g)
include mirrors

open Exec

/-- Two ticks in one context go the same way. -/
theorem twin_tick {c : Context} (fits : c.Fits tree) {s : σ} {t : τ} (related : R s t) :
    Ticked.Alike Eq R (engine.tick f tree c s) (engine.tick g tree c t) := by
  have start : ∀ d u v, R u v → (Run.start d u).Twins R (Run.start d v) :=
    fun d u v huv => ⟨Run.beside_start rfl huv, rfl⟩
  have twins : (engine.work f tree (c.agenda tree)).Coupled
      ((engine.under engine.policy).work g tree (c.agenda tree)) (.start c s) (.start c t)
      (fun _ => Run.Twins R) (Run.Twins R) := by
    refine coupled_work mirrors engine.policy related rfl fits (start c) ?_ ?_
    · intro bars u v huv _
      exact blind_perform mirrors _ (start _ u v huv)
    · intro bars u v w path pending huv _ _
      obtain ⟨beside, context⟩ := start (engine.supplied bars c).wake u v huv
      have counted := beside.counted
      refine coupled_goOn beside.steps (.refl _ _) ⟨counted, context⟩ ?_ ?_
      · exact fun next => ⟨counted.withContext rfl, rfl⟩
      · exact blind_perform mirrors _ ⟨counted, context⟩
  refine alike_tick fits fits (twins.mono ?_ ?_)
  · exact fun _ r r' _ h => ⟨h.beside, h.context⟩
  · exact fun r r' h => ⟨h.beside.feed, congrArg Context.wake h.context⟩

/-- A tick shows the same over both feeds, and it leaves related states. -/
theorem blind_tick {c : Context} (fits : c.Fits tree) {s : σ} {t : τ} (related : R s t) :
    (engine.tick f tree c s).shown = (engine.tick g tree c t).shown ∧
      R (engine.tick f tree c s).feed (engine.tick g tree c t).feed :=
  have alike := twin_tick mirrors fits related
  ⟨alike.shown, alike.feed⟩

/-- The ticks of a session show the same if the states of the feeds are related at every tick. -/
theorem blind_session {c : Context} (fits : c.Fits tree) {states : List σ} {states' : List τ}
    (related : List.Forall₂ R states states') :
    (engine.session f tree c states).map Ticked.shown =
      (engine.session g tree c states').map Ticked.shown := by
  have alike := @alike_session σ τ R engine f g tree engine (fun c d => c = d ∧ c.Fits tree) ?_ c c
    ⟨rfl, fits⟩ states states' related
  · rw [← List.forall₂_eq_eq_eq, List.forall₂_map_left_iff, List.forall₂_map_right_iff]
    exact alike.imp fun a b h => Prod.ext h.result h.context.1
  · rintro c _ s t ⟨rfl, fits⟩ hst
    have tick := @twin_tick σ τ R engine f g tree mirrors c fits s t hst
    exact ⟨tick.result, ⟨tick.context, fits_tick fits s⟩, tick.feed⟩

end Engine

end Stratagem
