import ContextFree.Demonstration

/-!
This module contains the program that prints the demonstration.
-/

def main : IO Unit :=
  IO.print ContextFree.Demonstration.text
