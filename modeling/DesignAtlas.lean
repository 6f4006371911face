import DesignAtlas.Main
import DesignAtlas.Proofs.Checked.Design
import DesignAtlas.Proofs.Comment.Joint
import DesignAtlas.Proofs.Comment.Lines
import DesignAtlas.Proofs.Condition.Branches
import DesignAtlas.Proofs.Design.ElsePolicy
import DesignAtlas.Proofs.Design.History
import DesignAtlas.Proofs.Document.References
import DesignAtlas.Proofs.Graph.Dot
import DesignAtlas.Proofs.Hierarchy.Acyclic
import DesignAtlas.Proofs.Hierarchy.Cycles
import DesignAtlas.Proofs.Hierarchy.Outline
import DesignAtlas.Proofs.Html.Markup
import DesignAtlas.Proofs.Instance.Spelling
import DesignAtlas.Proofs.Markdown.Rows
import DesignAtlas.Proofs.ModuleDecl.Recovery
import DesignAtlas.Proofs.ModuleInfo.Following
import DesignAtlas.Proofs.ModuleInfo.Literal
import DesignAtlas.Proofs.ModuleInfo.Normal
import DesignAtlas.Proofs.ModuleInfo.Refinement
import DesignAtlas.Proofs.Outline.RoundTrip
import DesignAtlas.Proofs.Parameter.Account
import DesignAtlas.Proofs.Parameter.Declarator
import DesignAtlas.Proofs.Parameter.Directives
import DesignAtlas.Proofs.Parameter.Form
import DesignAtlas.Proofs.Parameter.Level
import DesignAtlas.Proofs.Parameter.Parts
import DesignAtlas.Proofs.Parameter.RoundTrip
import DesignAtlas.Proofs.Parameter.Value
import DesignAtlas.Proofs.Pin.Phrase
import DesignAtlas.Proofs.Pin.Refine
import DesignAtlas.Proofs.Pin.Reformat
import DesignAtlas.Proofs.Pin.Tree
import DesignAtlas.Proofs.Reader.Truthful
import DesignAtlas.Proofs.Site.Links
import DesignAtlas.Proofs.Statement.Conditions
import DesignAtlas.Proofs.Statement.Directives
import DesignAtlas.Proofs.Statement.Join
import DesignAtlas.Proofs.Statement.Pieces
import DesignAtlas.Proofs.Statement.Scope
import DesignAtlas.Proofs.Token.Spans
