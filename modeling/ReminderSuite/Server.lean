import ReminderSuite.Session
import ReminderSuite.TextStore
import Mathlib.Logic.Function.Basic

/-! The Data Provider as a whole: any number of sessions over one provider, each
request handled by one uninterrupted call of `parseRequest`. -/
namespace ReminderSuite
open Delimited FallibleRun
variable {σ : Type}

structure Server (σ : Type) where
  sessions : Nat → Session
  store : σ

abbrev Event := Nat × Bytes

namespace Server

/-- The constructor reads the data; `none` is the exception it throws when that
fails. -/
def boot (lib : DBLibrary σ) (store : σ) : Except Fault (Option (Server σ)) :=
  (lib.read store).map fun (done, store) =>
    if done then some ⟨fun _ => Session.start, store⟩ else none

def receive (lib : DBLibrary σ) (srv : Server σ) (e : Event) : Except Fault (Server σ) :=
  (parseRequest lib e.2 (srv.sessions e.1) srv.store).map fun (session, store) =>
    ⟨Function.update srv.sessions e.1 session, store⟩

def repliesTo (srv : Server σ) (client : Nat) : List Bytes := (srv.sessions client).written

/-- The text server with the store loaded from a file of these bytes. -/
def ofFile (contents : Bytes) : Server TextStore :=
  ⟨fun _ => Session.start, ⟨DBTextFile.fresh.read ⟨contents, true, true⟩ |>.2,
    ⟨contents, true, true⟩⟩⟩

theorem boot_text (contents : Bytes) :
    boot textLibrary ⟨DBTextFile.fresh, ⟨contents, true, true⟩⟩ = .ok (some (ofFile contents)) :=
  rfl

end Server

theorem segments_mem {chunk seg : Bytes} (h : seg ∈ segments chunk) :
    seg ∈ tokens slash (stripCRLF chunk) := by
  unfold segments at h
  split at h
  · next rest ht => simp [ht, h]
  · exact h

theorem clean_segment {chunk seg : Bytes} (h : seg ∈ segments chunk) : Clean seg := by
  have hm := segments_mem h
  have hstrip : ∀ b ∈ seg, b ≠ cr ∧ b ≠ lf := by
    intro b hb
    have := mem_of_mem_token hm hb
    simpa [stripCRLF] using (List.mem_filter.mp this).2
  exact ⟨fun hb => (hstrip _ hb).2 rfl, fun hb => (hstrip _ hb).1 rfl, sep_not_mem_token hm⟩

def Call.SpelledBy (segs : List Bytes) : Call → Prop
  | .getAll => segs = [ascii "get"]
  | .get name field =>
    segs = [ascii "get", name] ∧ field = [] ∨ ∃ rest, segs = ascii "get" :: name :: field :: rest
  | .set name record => segs = [ascii "set", record] ∧ name = recordName record
  | .setField name field value => segs = [ascii "set", name, field, value]
  | .erase name => ∃ rest, segs = ascii "delete" :: name :: rest
  | .fields => ∃ rest, segs = ascii "fields" :: rest
  | .save => ∃ rest, segs = ascii "commit" :: rest

theorem spelledBy_of_plan {segs : List Bytes} {c : Call} (h : plan segs = .ok (some c)) :
    c.SpelledBy segs := by
  cases segs with
  | nil => simp [plan] at h
  | cons command args =>
    simp only [plan] at h
    split_ifs at h with hget hset hdelete hfields hcommit
    · rcases args with _ | ⟨name, _ | ⟨field, rest⟩⟩
      · cases h
        simp [Call.SpelledBy, hget]
      · cases h
        simp [Call.SpelledBy, hget]
      · cases h
        exact Or.inr ⟨rest, by rw [hget]⟩
    · rcases args with _ | ⟨a, _ | ⟨b, _ | ⟨d, _ | ⟨e, rest⟩⟩⟩⟩
      · cases h
      · cases h
        simp [Call.SpelledBy, hset]
      · cases h
      · cases h
        simp [Call.SpelledBy, hset]
      · cases h
    · cases args with
      | nil => cases h
      | cons name rest =>
        cases h
        exact ⟨rest, by rw [hdelete]⟩
    · cases h
      exact ⟨args, by rw [hfields]⟩
    · cases h
      exact ⟨args, by rw [hcommit]⟩
    · cases h

theorem receive_ok {lib : DBLibrary σ} {srv srv' : Server σ} {e : Event}
    (h : srv.receive lib e = .ok srv') :
    (plan (segments e.2) = .ok none ∧ srv'.store = srv.store) ∨
    ∃ c result, plan (segments e.2) = .ok (some c) ∧
      lib.invoke c srv.store = .ok (result, srv'.store) := by
  obtain ⟨⟨session, store⟩, hp, rfl⟩ := map_eq_ok_iff.mp h
  cases parseRequest_ok hp with
  | inl hrefused => exact Or.inl ⟨hrefused.1, hrefused.2.1⟩
  | inr hcall =>
    obtain ⟨c, result, hplan, hi, -⟩ := hcall
    exact Or.inr ⟨c, result, hplan, hi⟩

theorem receive_text_invariant {P : TextStore → Prop} {srv srv' : Server TextStore} {e : Event}
    (h : srv.receive textLibrary e = .ok srv') (hP : P srv.store)
    (hcall : ∀ c, plan (segments e.2) = .ok (some c) → P (c.effect srv.store)) :
    P srv'.store := by
  cases receive_ok h with
  | inl hquiet => rwa [hquiet.2]
  | inr hcall =>
    obtain ⟨c, result, hplan, hi⟩ := hcall
    rw [invoke_text_effect hi]
    exact hcall c hplan

theorem receive_text_fields {srv srv' : Server TextStore} {e : Event}
    (h : srv.receive textLibrary e = .ok srv') : srv'.store.db.fields_ = srv.store.db.fields_ :=
  receive_text_invariant (P := fun s => s.db.fields_ = srv.store.db.fields_) h rfl
    fun c _ => effect_fields c srv.store

end ReminderSuite
