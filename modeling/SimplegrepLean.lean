import SimplegrepLean.Ast
import SimplegrepLean.Tokens
import SimplegrepLean.Tokens.Chars
import SimplegrepLean.Parser
import SimplegrepLean.Parser.Termination
import SimplegrepLean.Parser.Simulation
import SimplegrepLean.Parser.Grammar
import SimplegrepLean.Parser.Pattern
import SimplegrepLean.Parser.Errors
import SimplegrepLean.Semantics
import SimplegrepLean.Automaton
import SimplegrepLean.Automaton.Build
import SimplegrepLean.Automaton.Shape
import SimplegrepLean.Automaton.Run
import SimplegrepLean.Automaton.Fragment
import SimplegrepLean.Automaton.Chain
import SimplegrepLean.Automaton.Literal
import SimplegrepLean.Automaton.Loops
import SimplegrepLean.Automaton.Language
import SimplegrepLean.Pipeline
