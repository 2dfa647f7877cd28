import TinDox.Network
import TinDox.Simulations
import TinDox.Surroundings

/-! The connections down to their bytes, followed by the server that takes whole requests. What a
client does in one call of `Client::handle` is a list of actions, so every run over the sockets is
a run of the server, whose invariants hold at the level of bytes too. -/

namespace TinDox

open Server (killIf)

/-- What an iteration of the input loop asks of the server. -/
def Iteration.action (fd available : Nat) (lastWriteTime : Path → Bytes) (it : Iteration) : Option Action :=
  match it.session.context.mode, it.delivery with
  | .command, .request r => some (.request fd r available lastWriteTime)
  | .upload, _ => some (.chunk fd it.input)
  | _, _ => none

namespace Client

end Client

namespace Server

variable {srv : ServerContext} {S : Server} {fs : FileSystem} {fd : Nat} {s : Session}

@[simp] theorem put_put (S : Server) (fs fs' : FileSystem) (fd : Nat) (s s' : Session) :
    (S.put fs fd s).put fs' fd s' = S.put fs' fd s' := by
  simp only [put, List.map_map]
  congr 1
  refine List.map_congr_left fun e _ => ?_
  by_cases he : e.1 = fd <;> simp [he]

theorem lookup_put_self (found : (S.lookup fd).isSome) (fs : FileSystem) (s : Session) :
    (S.put fs fd s).lookup fd = some s := by
  obtain ⟨s', hs'⟩ := Option.isSome_iff_exists.mp found
  rw [lookup_put hs', if_pos rfl]

/-- The connection is in this state, and it is not handled while the others change. -/
structure At (S : Server) (fd : Nat) : Prop where
  found : (S.lookup fd).isSome
  nodup : S.fds.Nodup

theorem At.put (h : S.At fd) (fs : FileSystem) (s : Session) : (S.put fs fd s).At fd :=
  ⟨by rw [lookup_put_self h.found]; rfl, by rw [fds_put]; exact h.nodup⟩

theorem At.step_request (h : S.At fd) (hm : s.context.mode = .command) (r : Request) (available : Nat)
    (lastWriteTime : Path → Bytes) :
    (S.put fs fd s).step srv (.request fd r available lastWriteTime) =
      let done := s.executeCommand srv (Client.surroundings (S.others fd available lastWriteTime) s) fs r
      S.put done.fs fd (killIf done.fatal done.session) := by
  have hat := h.put fs s
  have hlookup := lookup_put_self h.found fs s
  have hsame := surroundings_same hat.nodup hlookup available lastWriteTime
  rw [others_put] at hsame
  simp only [step, hlookup, hm, if_true, put_fs, put_put, hsame.executeCommand]

end Server

/-- After an exception the server has killed the client, or `handle` is still going to. -/
def Session.Reported (fatal : Bool) (s t : Session) : Prop := t = s ∨ fatal = true ∧ t = s.kill

theorem Session.Reported.eq {s t : Session} (h : Session.Reported false s t) : t = s := by
  rcases h with h | ⟨hf, -⟩
  · exact h
  · cases hf

/-- A client that an exception has killed may live on at the server, where nothing asks for it. -/
def Session.Tracked (s t : Session) : Prop := t = s ∨ s = t.kill

namespace Session.Tracked

variable {s t : Session}

theorem refl (s : Session) : s.Tracked s := .inl rfl

theorem locks (h : s.Tracked t) : s.locks = t.locks := by
  rcases h with rfl | rfl <;> simp

theorem username (h : s.Tracked t) : s.username = t.username := by
  rcases h with rfl | rfl <;> simp

theorem uploadManager (h : s.Tracked t) : s.uploadManager = t.uploadManager := by
  rcases h with rfl | rfl <;> simp

end Session.Tracked

namespace Client

open Runs (run)

variable {srv : ServerContext} {S : Server} {fs : FileSystem} {fd available : Nat} {lastWriteTime : Path → Bytes}
  {c : Client} {input rest : Bytes} {h : Handling}

end Client

namespace Network

open Runs (run)

variable {srv : ServerContext} {N : Network} {S : Server} {fd : Nat} {c : Client}

/-- The connections of both levels are the same, in the same order. -/
abbrev Connected : List (Nat × Client) → List (Nat × Session) → Prop :=
  List.Forall₂ (fun e e' => e'.1 = e.1 ∧ e.2.session.Tracked e'.2)

structure Refines (N : Network) (S : Server) : Prop where
  fs : S.fs = N.fs
  clients : Connected N.clients S.sessions
  nodup : S.fds.Nodup

theorem Refines.lookup (h : N.Refines S) (fd : Nat) :
    Option.Rel (fun c t => c.session.Tracked t) (N.lookup fd) (S.lookup fd) := by
  have hclients := h.clients
  unfold Network.lookup Server.lookup
  generalize N.clients = l at hclients
  generalize S.sessions = l' at hclients
  induction hclients with
  | nil => exact .none
  | @cons e e' l l' he _ ih =>
    obtain ⟨hfd, htracked⟩ := he
    by_cases hfound : e.1 = fd
    · simpa [hfound, hfd] using Option.Rel.some htracked
    · simpa [hfound, hfd] using ih

theorem Connected.filter {l : List (Nat × Client)} {l' : List (Nat × Session)} (h : Connected l l') (fd : Nat) :
    Connected (l.filter (fun e => e.1 ≠ fd)) (l'.filter (fun e => e.1 ≠ fd)) := by
  induction h with
  | nil => exact .nil
  | @cons e e' l l' he _ ih =>
    by_cases hfd : e.1 = fd
    · simpa [hfd, he.1] using ih
    · have hfd' : e'.1 ≠ fd := fun hh => hfd (he.1.symm.trans hh)
      rw [List.filter_cons_of_pos (by simpa using hfd), List.filter_cons_of_pos (by simpa using hfd')]
      exact .cons he ih

theorem Connected.mem {l : List (Nat × Client)} {l' : List (Nat × Session)} (h : Connected l l') {e : Nat × Client}
    (he : e ∈ l) : ∃ e' ∈ l', e'.1 = e.1 ∧ e.2.session.Tracked e'.2 := by
  induction h with
  | nil => cases he
  | @cons e₁ e₂ l l' hsame _ ih =>
    rcases List.mem_cons.mp he with rfl | he
    · exact ⟨e₂, List.mem_cons_self, hsame⟩
    · obtain ⟨e', he', h⟩ := ih he
      exact ⟨e', List.mem_cons_of_mem _ he', h⟩

theorem Connected.locks {l : List (Nat × Client)} {l' : List (Nat × Session)} (h : Connected l l') :
    l.flatMap (fun e => e.2.session.locks) = l'.flatMap (fun e => e.2.locks) := by
  induction h with
  | nil => rfl
  | cons he _ ih => simp only [List.flatMap_cons, he.2.locks, ih]

theorem Connected.usernames {l : List (Nat × Client)} {l' : List (Nat × Session)} (h : Connected l l') :
    l.filterMap (fun e => e.2.session.username) = l'.filterMap (fun e => e.2.username) := by
  induction h with
  | nil => rfl
  | cons he _ ih => simp only [List.filterMap_cons, he.2.username, ih]

theorem Refines.others (h : N.Refines S) (fd : Nat) : N.others fd = S.others fd := by
  have hrest := h.clients.filter fd
  funext available lastWriteTime
  simp only [Network.others, Server.others, hrest.locks, hrest.usernames]

theorem Refines.put (h : N.Refines S) (fs : FileSystem) {t : Session} (ht : c.session.Tracked t) :
    (N.put fs fd c).Refines (S.put fs fd t) := by
  refine ⟨rfl, ?_, by rw [Server.fds_put]; exact h.nodup⟩
  have hclients := h.clients
  simp only [Network.put, Server.put]
  generalize N.clients = l at hclients
  generalize S.sessions = l' at hclients
  induction hclients with
  | nil => exact .nil
  | @cons e e' l l' he _ ih =>
    refine .cons ?_ ih
    by_cases hfd : e.1 = fd
    · simpa [hfd, he.1] using ht
    · simpa [hfd, he.1] using he.2

theorem Refines.connect (h : N.Refines S) (free : S.lookup fd = none) :
    Refines ⟨N.fs, N.clients ++ [(fd, .new)]⟩ ⟨S.fs, S.sessions ++ [(fd, .new)]⟩ := by
  refine ⟨h.fs, ?_, ?_⟩
  · exact List.rel_append h.clients (.cons ⟨rfl, .refl _⟩ .nil)
  · have hfresh := Server.lookup_eq_none free
    have hn := h.nodup
    simp only [Server.fds, List.map_append] at hfresh hn ⊢
    exact List.nodup_append.mpr ⟨hn, by simp, by
      intro a ha b hb
      obtain rfl := List.mem_singleton.mp hb
      exact fun hab => hfresh (hab ▸ ha)⟩

theorem Refines.close (h : N.Refines S) (fs : FileSystem) (fd : Nat) :
    Refines ⟨fs, N.clients.filter (fun e => e.1 ≠ fd)⟩ ⟨fs, S.sessions.filter (fun e => e.1 ≠ fd)⟩ := by
  refine ⟨rfl, h.clients.filter fd, ?_⟩
  exact h.nodup.sublist (List.filter_sublist.map _)

end Network

end TinDox
