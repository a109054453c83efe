import Ipa.Ngram.Visits

/-!
# The greedy choice of windows

A visitor that closes exactly the windows of which a test holds makes the traversal a greedy
choice: the windows are taken in their order, and one that lies in a taken window is passed over.
Since the sizes descend, no taken window contains another.
-/

namespace Ipa.Ngram

/-- The windows that the test accepts after those in `taken`; one that lies in a taken window is
not looked at. -/
def greedy (accepts : Span → Bool) : List Span → List Span → List Span
  | [], taken => taken
  | w :: ws, taken =>
    if Covers taken w then greedy accepts ws taken
    else if accepts w then greedy accepts ws (taken ++ [w])
    else greedy accepts ws taken

/-- The visitor that closes the windows that the test accepts, and collects them. -/
def deciding (accepts : Span → Bool) (w : Span) (taken : List Span) : Int × List Span :=
  if accepts w then (1, taken ++ [w]) else (0, taken)

theorem visits_deciding (accepts : Span → Bool) : ∀ (ws : List Span) (calls : List Call),
    ∃ calls', visits (deciding accepts) ws calls (closedBy calls) =
      .ok (calls', greedy accepts ws (closedBy calls))
  | [], calls => ⟨calls, rfl⟩
  | w :: ws, calls => by
    rw [visits, greedy]
    by_cases hcovered : Covers (closedBy calls) w
    · rw [if_pos hcovered, if_pos hcovered]
      exact visits_deciding accepts ws calls
    rw [if_neg hcovered, if_neg hcovered]
    have hclosed := fun decision => closedBy_append calls w decision
    unfold deciding
    by_cases haccepts : accepts w = true
    · obtain ⟨calls', h⟩ := visits_deciding accepts ws (calls ++ [⟨w, 1⟩])
      rw [hclosed 1, if_pos rfl] at h
      rw [if_pos haccepts, if_pos haccepts]
      exact ⟨calls', h⟩
    · obtain ⟨calls', h⟩ := visits_deciding accepts ws (calls ++ [⟨w, 0⟩])
      rw [hclosed 0, if_neg Int.zero_ne_one] at h
      rw [if_neg haccepts, if_neg haccepts]
      exact ⟨calls', h⟩

/-- The second span is not longer than the first. -/
def Span.Descends (a b : Span) : Prop := b.stop + a.start ≤ a.stop + b.start

/-- Neither span contains the other. -/
def Span.Apart (a b : Span) : Prop := ¬ a.Contains b ∧ ¬ b.Contains a

theorem windows_descend {count : Nat} {minTokens : Int} (hmin : 1 ≤ minTokens) :
    ∀ size, (windows count minTokens size).Pairwise Span.Descends
  | 0 => .nil
  | size + 1 => by
    unfold windows
    split
    · refine List.pairwise_append.mpr ⟨?_, windows_descend hmin size, ?_⟩
      · refine List.pairwise_of_forall_mem_list ?_
        intro a ha b hb
        have ha := (mem_windowsOfSize (Nat.succ_pos size)).mp ha
        have hb := (mem_windowsOfSize (Nat.succ_pos size)).mp hb
        unfold Span.Descends
        omega
      · intro a ha b hb
        have ha := (mem_windowsOfSize (Nat.succ_pos size)).mp ha
        have hb := (mem_windows hmin).mp hb
        unfold Span.Descends
        omega
    · exact .nil

theorem greedy_apart (accepts : Span → Bool) : ∀ (ws taken : List Span),
    ws.Pairwise Span.Descends → (∀ a ∈ taken, ∀ w ∈ ws, a.Descends w) →
      taken.Pairwise Span.Apart → (greedy accepts ws taken).Pairwise Span.Apart
  | [], _, _, _, h => h
  | w :: ws, taken, hws, htaken, h => by
    obtain ⟨hw, hws⟩ := List.pairwise_cons.mp hws
    have hrest : ∀ a ∈ taken, ∀ v ∈ ws, a.Descends v :=
      fun a ha v hv => htaken a ha v (List.mem_cons_of_mem w hv)
    unfold greedy
    split
    · exact greedy_apart accepts ws taken hws hrest h
    rename_i hopen
    split
    · refine greedy_apart accepts ws (taken ++ [w]) hws ?_ ?_
      · intro a ha v hv
        rcases List.mem_append.mp ha with ha | ha
        · exact hrest a ha v hv
        · rw [List.mem_singleton.mp ha]
          exact hw v hv
      · refine List.pairwise_append.mpr ⟨h, List.pairwise_singleton _ _, ?_⟩
        intro a ha b hb
        rw [List.mem_singleton.mp hb]
        have hnot : ¬ a.Contains w := fun hcontains => hopen ⟨a, ha, hcontains⟩
        have hdesc := htaken a ha w List.mem_cons_self
        refine ⟨hnot, fun hcontains => hnot ?_⟩
        -- a span that contains one that is not shorter is that span
        unfold Span.Descends at hdesc
        obtain ⟨hstart, hstop⟩ := hcontains
        exact ⟨by omega, by omega⟩
    · exact greedy_apart accepts ws taken hws hrest h

end Ipa.Ngram
