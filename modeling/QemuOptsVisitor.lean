import QemuOptsVisitor.Glib
import QemuOptsVisitor.Parsing
import QemuOptsVisitor.Visitor
import QemuOptsVisitor.Decoders
import QemuOptsVisitor.RangeCheck
import QemuOptsVisitor.BuildIndex
import QemuOptsVisitor.Protocol
import QemuOptsVisitor.Invariant
import QemuOptsVisitor.Fields
import QemuOptsVisitor.Progress
import QemuOptsVisitor.Expansion
import QemuOptsVisitor.ListTraversal
import QemuOptsVisitor.Commutation
import QemuOptsVisitor.Session
import QemuOptsVisitor.Lifecycle
