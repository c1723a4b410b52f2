/-
# One entry per site

The sites of a program that was read have different places. While the program
runs, and when it has ended, its symbol table has at most one entry for each
site and none for anything else: however often a declaration is reached, by
loops or by recursion, it is reached with the scope open that lies around it
in the source, and so it finds its entry again.

A run is compared with itself here: the bond has the sites of the program and
leaves the numbers of entries as they are.

Key definitions: `SymbolTable.Lists`.
Key theorems: `SymbolTable.Kept.lists`, `one_entry_per_site`.
-/
import Mathlib.Data.List.Nodup
import Treewalk.Proofs.Bond.Tree
import Treewalk.Proofs.Sites.Parsed

namespace Treewalk

/-- The table is a list of sites: every entry has the name, the place and the scope of one, no two
have the same place, and the order of an entry is its index. -/
structure SymbolTable.Lists (sites : List Site) (t : SymbolTable) : Prop where
  of_site : ∀ e ∈ t.symbols, ∃ s ∈ sites, e.name = s.name ∧ e.pos = s.pos ∧ e.scope = s.scope.label
  single : (t.symbols.toList.map Symbol.pos).Nodup
  order : ∀ i (h : i < t.symbols.size), t.symbols[i].order = i

/-- A table that is kept for sites with different places lists them. -/
theorem SymbolTable.Kept.lists {t : SymbolTable} {sites : List Site} (h : t.Kept (· ∈ sites))
    (hplaces : (sites.map Site.pos).Nodup) : t.Lists sites := by
  refine ⟨fun e he => ?_, ?_, fun i hi => t.wf.order (Array.getElem?_eq_getElem hi)⟩
  · obtain ⟨i, hi⟩ := Array.getElem?_of_mem he
    obtain ⟨s, hs, hkey⟩ := h i e hi
    simp only [Symbol.key, Site.key, Prod.mk.injEq] at hkey
    exact ⟨s, hs, hkey.1, hkey.2.2, hkey.2.1⟩
  · refine List.pairwise_map.mpr (List.pairwise_iff_getElem.mpr ?_)
    intro i j hi hj hlt hsame
    have hi' : t.symbols[i]? = some t.symbols[i] := Array.getElem?_eq_getElem hi
    have hj' : t.symbols[j]? = some t.symbols[j] := Array.getElem?_eq_getElem hj
    obtain ⟨s, hs, hkey⟩ := h i _ hi'
    obtain ⟨s', hs', hkey'⟩ := h j _ hj'
    -- the sites of the two entries have one place, so they are one
    have hpos : s.pos = s'.pos := by
      have hleft : t.symbols[i].pos = s.pos := congrArg (·.2.2) hkey
      have hright : t.symbols[j].pos = s'.pos := congrArg (·.2.2) hkey'
      rw [← hleft, ← hright]
      exact hsame
    have hsite : s = s' := List.inj_on_of_nodup_map hplaces hs hs' hpos
    rw [← hsite] at hkey'
    have hindex := t.wf.eq_of_key_eq hi' hj' (hkey.trans hkey'.symm)
    omega

/-- **One entry per site.** The sites of a program that was read from a source have different
places. Whatever the limits, in every machine that its run from the beginning passes, and in the one
it leaves, every entry of the symbol table has the name, the place and the scope label of a site, no
two entries have the same place, and so there is at most one for each site; the order of an entry is
its index. With fewer than `UInt32.size - 1` characters the places of sites do not outgrow 32
bits. -/
theorem one_entry_per_site (config : Config) (source : String) :
    let parsed := Parsed.ofText source
    let start := Machine.starting (ErrorLog.empty.append parsed.errors)
    (parsed.program.sites.map Site.pos).Nodup ∧
      (∀ m, (Eval.program config.context parsed.program).passes start m →
        m.symbols.Lists parsed.program.sites) ∧
      (Machine.initial.executeParsed config parsed).symbols.Lists parsed.program.sites ∧
      (source.length < UInt32.size - 1 → ∀ s ∈ parsed.program.sites,
        s.pos.line < UInt32.size ∧ s.pos.column < UInt32.size) := by
  intro parsed start
  have hplaces : (parsed.program.sites.map Site.pos).Nodup := Program.nodup_sites source
  -- the run is compared with itself
  have hkeeps : (Bond.same (· ∈ parsed.program.sites)).Keeps []
      (Eval.program config.context parsed.program) :=
    Bond.keeps_program (Bond.calls_ofLevels _ config _ _) fun s hs => hs
  have htied := Bond.tied_starting (· ∈ parsed.program.sites) (ErrorLog.empty.append parsed.errors)
  refine ⟨hplaces, fun m hm => ?_, ?_, fun hlen s hs => ?_⟩
  · obtain ⟨ss, m', hm'⟩ := hkeeps.passes htied m hm
    exact hm'.table.kept.lists hplaces
  · exact (hkeeps.ends htied).execute.table.kept.lists hplaces
  · obtain ⟨t, ht, -, hpos⟩ := Program.exists_token_of_mem_sites hs
    obtain ⟨before, after, hsplit, hbehind⟩ := Scan.pos_mem_tokens ht
    rw [← hpos]
    exact behind_lt hlen hsplit hbehind

end Treewalk
