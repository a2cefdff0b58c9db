import Mathlib.Data.List.Nodup
import Mathlib.Data.List.Perm.Basic

/-!
# Tokens for messages

A client sends messages, and each message gets a token. An answer names the token of its message.
There are fewer tokens than messages, so that a token comes again after a while. The book of the
client is kept by the numbers of the messages here, and the tokens of the answers that are waited
for follow it as long as no message is left without an answer for too long.
-/
namespace Deai.RequestTokens

/-- Which messages can still be answered, and which answers are waited for. -/
structure Book (ρ : Type) where
  sent : ℕ := 0
  unanswered : List ℕ := []
  waiting : List (ℕ × ρ) := []

/-- A message is sent, which may be answered or not; or sent by someone who waits for the answer;
or an answer comes. -/
inductive Op (ρ : Type) where
  | send (answered : Bool)
  | call (r : ρ)
  | answer (n : ℕ)

variable {ρ : Type}

def Book.step (b : Book ρ) : Op ρ → Book ρ
  | .send answered =>
      {b with sent := b.sent + 1,
              unanswered := if answered then b.sent :: b.unanswered else b.unanswered}
  | .call r =>
      {sent := b.sent + 1, unanswered := b.sent :: b.unanswered,
       waiting := b.waiting ++ [(b.sent, r)]}
  | .answer n =>
      {b with unanswered := b.unanswered.erase n, waiting := b.waiting.filter (·.1 ≠ n)}

/-- Answers are for messages that have none, and no message has been left without one for
`window` messages when the next one is sent. -/
def Op.Timely (window : ℕ) (b : Book ρ) : Op ρ → Prop
  | .answer n => n ∈ b.unanswered
  | _ => ∀ n ∈ b.unanswered, b.sent < n + window

/-- What holds of a book that is kept in time. -/
structure Book.Kept (window : ℕ) (b : Book ρ) : Prop where
  nodup : b.unanswered.Nodup
  old : ∀ n ∈ b.unanswered, n < b.sent
  close : ∀ m ∈ b.unanswered, ∀ n ∈ b.unanswered, m < n → n < m + window
  asked : ∀ q ∈ b.waiting, q.1 ∈ b.unanswered
  keys : (b.waiting.map Prod.fst).Nodup

variable {window : ℕ} {b : Book ρ} {op : Op ρ}

theorem Book.Kept.empty : ({} : Book ρ).Kept window where
  nodup := List.nodup_nil
  old := by simp
  close := by simp
  asked := by simp
  keys := List.nodup_nil

/-- The next message among those without an answer. -/
theorem Book.Kept.sent (h : b.Kept window) (htime : ∀ n ∈ b.unanswered, b.sent < n + window) :
    (b.sent :: b.unanswered).Nodup ∧ (∀ n ∈ b.sent :: b.unanswered, n < b.sent + 1) ∧
      ∀ m ∈ b.sent :: b.unanswered, ∀ n ∈ b.sent :: b.unanswered, m < n → n < m + window := by
  refine ⟨List.nodup_cons.mpr ⟨fun hmem => Nat.lt_irrefl _ (h.old _ hmem), h.nodup⟩, ?_, ?_⟩
  · intro n hn
    rcases List.mem_cons.mp hn with rfl | hn
    · exact Nat.lt_succ_self _
    · exact Nat.lt_succ_of_lt (h.old n hn)
  · intro m hm n hn hlt
    rcases List.mem_cons.mp hm with rfl | hm <;> rcases List.mem_cons.mp hn with rfl | hn
    · exact absurd hlt (Nat.lt_irrefl _)
    · exact absurd hlt (Nat.lt_asymm (h.old n hn))
    · exact htime m hm
    · exact h.close m hm n hn hlt

theorem Book.Kept.step (h : b.Kept window) (htime : op.Timely window b) :
    (b.step op).Kept window := by
  cases op with
  | send answered =>
      obtain ⟨hnodup, hold, hclose⟩ := h.sent htime
      cases answered with
      | false =>
          exact ⟨h.nodup, fun n hn => Nat.lt_succ_of_lt (h.old n hn), h.close, h.asked, h.keys⟩
      | true =>
          exact ⟨hnodup, hold, hclose, fun q hq => List.mem_cons_of_mem _ (h.asked q hq),
            h.keys⟩
  | call r =>
      obtain ⟨hnodup, hold, hclose⟩ := h.sent htime
      refine ⟨hnodup, hold, hclose, ?_, ?_⟩
      · intro q hq
        rcases List.mem_append.mp hq with hq | hq
        · exact List.mem_cons_of_mem _ (h.asked q hq)
        · rw [List.mem_singleton.mp hq]
          exact List.mem_cons_self
      · have hfresh : b.sent ∉ b.waiting.map Prod.fst := by
          intro hmem
          obtain ⟨q, hq, heq⟩ := List.mem_map.mp hmem
          exact Nat.lt_irrefl _ (heq ▸ h.old _ (h.asked q hq))
        change ((b.waiting ++ [(b.sent, r)]).map Prod.fst).Nodup
        rw [List.map_append]
        simpa using h.keys.concat hfresh
  | answer n =>
      refine ⟨h.nodup.erase n, fun m hm => h.old m (List.mem_of_mem_erase hm),
        fun m hm k hk => h.close m (List.mem_of_mem_erase hm) k (List.mem_of_mem_erase hk), ?_,
        h.keys.sublist (List.filter_sublist.map _)⟩
      intro q hq
      obtain ⟨hq, hne⟩ := List.mem_filter.mp hq
      exact (List.mem_erase_of_ne (of_decide_eq_true hne)).mpr (h.asked q hq)

/-! ## The answers that are waited for -/

/-- Who waits for the answer to a message. -/
def Book.awaited (b : Book ρ) (n : ℕ) : Option ρ := (b.waiting.find? (·.1 = n)).map Prod.snd

variable {n : ℕ} {r : ρ}

theorem Book.mem_of_awaited (h : b.awaited n = some r) : (n, r) ∈ b.waiting := by
  obtain ⟨q, hq, rfl⟩ := Option.map_eq_some_iff.mp h
  have hkey : q.1 = n := by simpa using List.find?_some hq
  exact hkey ▸ List.mem_of_find?_eq_some hq

theorem Book.awaited_eq_none_iff : b.awaited n = none ↔ n ∉ b.waiting.map Prod.fst := by
  simp only [Book.awaited, Option.map_eq_none_iff, List.find?_eq_none, decide_eq_true_eq,
    List.mem_map, not_exists, not_and]

theorem Book.Kept.awaited_of_mem (h : b.Kept window) (hmem : (n, r) ∈ b.waiting) :
    b.awaited n = some r := by
  cases hfind : b.awaited n with
  | none => exact absurd (List.mem_map_of_mem hmem) (Book.awaited_eq_none_iff.mp hfind)
  | some r' =>
      have heq := List.inj_on_of_nodup_map h.keys (Book.mem_of_awaited hfind) hmem rfl
      exact congrArg some (Prod.mk.inj heq).2

/-- An answer takes away one that is waited for. -/
theorem Book.Kept.waiting_answer [DecidableEq ρ] (h : b.Kept window) (hmem : (n, r) ∈ b.waiting) :
    b.waiting.Perm ((n, r) :: (b.step (.answer n)).waiting) := by
  have herase : (b.step (.answer n)).waiting = b.waiting.erase (n, r) := by
    rw [h.keys.of_map.erase_eq_filter]
    refine List.filter_congr fun q hq => ?_
    have hiff : q = (n, r) ↔ q.1 = n :=
      ⟨fun heq => heq ▸ rfl, fun heq => List.inj_on_of_nodup_map h.keys hq hmem heq⟩
    rcases Decidable.eq_or_ne q.1 n with heq | hne
    · simp [hiff.mpr heq]
    · simp [hne, hiff.not.mpr hne]
  rw [herase]
  exact List.perm_cons_erase hmem

/-! ## The tokens -/

section Tokens
variable {τ : Type} (token : ℕ → τ)

/-- A token does not come again within `window` messages. -/
def Recycled (window : ℕ) : Prop := ∀ m n, m < n → n < m + window → token m ≠ token n

/-- The tokens of the answers that are waited for. -/
def Book.tokens (b : Book ρ) : List τ := b.waiting.map fun q => token q.1

variable {token} {m : ℕ}

theorem Book.Kept.token_inj (h : b.Kept window) (htoken : Recycled token window)
    (hm : m ∈ b.unanswered) (hn : n ∈ b.unanswered) (heq : token m = token n) : m = n := by
  rcases Nat.lt_trichotomy m n with hlt | rfl | hlt
  · exact absurd heq (htoken m n hlt (h.close m hm n hn hlt))
  · rfl
  · exact absurd heq.symm (htoken n m hlt (h.close n hn m hm hlt))

theorem Book.Kept.mem_tokens_iff (h : b.Kept window) (htoken : Recycled token window)
    (hn : n ∈ b.unanswered) : token n ∈ b.tokens token ↔ n ∈ b.waiting.map Prod.fst := by
  constructor
  · intro hmem
    obtain ⟨q, hq, heq⟩ := List.mem_map.mp hmem
    exact h.token_inj htoken (h.asked q hq) hn heq ▸ List.mem_map_of_mem hq
  · intro hmem
    obtain ⟨q, hq, rfl⟩ := List.mem_map.mp hmem
    exact List.mem_map_of_mem (f := fun q => token q.1) hq

/-- The token of the next message is not one that is waited for. -/
theorem Book.Kept.token_sent (h : b.Kept window) (htoken : Recycled token window)
    (htime : ∀ n ∈ b.unanswered, b.sent < n + window) : token b.sent ∉ b.tokens token := by
  intro hmem
  obtain ⟨q, hq, heq⟩ := List.mem_map.mp hmem
  have hasked := h.asked q hq
  exact htoken q.1 b.sent (h.old _ hasked) (htime _ hasked) heq

theorem Book.Kept.tokens_nodup (h : b.Kept window) (htoken : Recycled token window) :
    (b.tokens token).Nodup := by
  rw [Book.tokens, List.nodup_map_iff_inj_on h.keys.of_map]
  intro q hq q' hq' heq
  have hfst := h.token_inj htoken (h.asked q hq) (h.asked q' hq') heq
  exact List.inj_on_of_nodup_map h.keys hq hq' hfst

theorem Book.tokens_call (b : Book ρ) (r : ρ) :
    (b.step (.call r)).tokens token = b.tokens token ++ [token b.sent] := by
  simp [Book.tokens, Book.step]

/-- An answer takes away its own token only. -/
theorem Book.Kept.tokens_answer [DecidableEq τ] (h : b.Kept window) (htoken : Recycled token window)
    (hn : n ∈ b.unanswered) :
    (b.step (.answer n)).tokens token = (b.tokens token).erase (token n) := by
  rw [(h.tokens_nodup htoken).erase_eq_filter, Book.tokens, Book.tokens, List.filter_map]
  refine congrArg (List.map _) (List.filter_congr fun q hq => ?_)
  have hiff : token q.1 = token n ↔ q.1 = n :=
    ⟨h.token_inj htoken (h.asked q hq) hn, fun heq => heq ▸ rfl⟩
  rcases Decidable.eq_or_ne q.1 n with heq | hne
  · simp [heq]
  · simp [hne, hiff.not.mpr hne]

end Tokens

end Deai.RequestTokens
